import ColonScript.Decimal.Layout
import ColonScript.Source
import ColonScript.Text.Quoted

/-!
# Scripts

A script is written token by token, from its first line on.  Tokens are made by name or by
number and then given an argument, a mark or a line.
-/

namespace ColonScript

namespace Token

/-- A command without argument, by its name in any case. -/
def ofName (name : String) : Token :=
  ⟨.command ⟨.ofWord name.toLower, none⟩, 1⟩

/-- A reference to a variable. -/
def ofVariable (n : UInt64) : Token :=
  ⟨.reference ⟨.var, .index n, false⟩, 1⟩

/-- A reference to a function. -/
def ofFunction (n : UInt64) : Token :=
  ⟨.reference ⟨.fn, .index n, false⟩, 1⟩

/-- The reference to the number of program arguments. -/
def argumentCount : Token :=
  ⟨.reference ⟨.var, .argCount, false⟩, 1⟩

/-- The same reference, looked up one scope further out.  A command stays as it is. -/
def inParent (t : Token) : Token :=
  match t.kind with
  | .reference r => { t with kind := .reference { r with parent := true } }
  | .command _ => t

/-- The same token on another line. -/
def onLine (t : Token) (line : Nat) : Token :=
  { t with line := line }

/-- The same command with the given argument.  A reference stays as it is. -/
def withArgument (t : Token) (a : Argument) : Token :=
  match t.kind with
  | .reference _ => t
  | .command c => { t with kind := .command { c with argument := some a } }

/-- The same command with a text as its argument. -/
def withText (t : Token) (text : String) : Token :=
  t.withArgument ⟨.text, String.ofList (Text.Quoted.escape text.toList)⟩

/-- The same command with an integer as its argument. -/
def withInteger (t : Token) (n : UInt64) : Token :=
  t.withArgument ⟨.static, String.ofList (Decimal.digits n.toNat)⟩

/-- The same command with a number as its argument, which always gets a point. -/
def withNumber (t : Token) (x : Binary64) : Token :=
  let text := Decimal.Layout.plain.render x
  t.withArgument ⟨.dynamic, if text.toList.contains '.' then text else text ++ ".0"⟩

/-- The same command with a word as its argument. -/
def withWord (t : Token) (word : String) : Token :=
  t.withArgument ⟨.word, word⟩

end Token

/-- The tokens written so far, and the line of the next one. -/
structure Script where
  tokens : List Token := []
  line : Nat := 1
deriving DecidableEq, Repr

namespace Script

/-- Writes a token on the current line. -/
def token (s : Script) (t : Token) : Script :=
  { s with tokens := s.tokens ++ [t.onLine s.line] }

/-- Writes some tokens on the current line. -/
def append (s : Script) (ts : List Token) : Script :=
  ts.foldl token s

/-- Goes to the next line. -/
def newline (s : Script) : Script :=
  { s with line := s.line + 1 }

/-- Writes an `echo` of some values. -/
def echo (s : Script) (values : List Token) : Script :=
  s.append (.ofName "echo" :: values)

/-- Writes an `echo` of some values through a format. -/
def echoFormat (s : Script) (format : String) (values : List Token) : Script :=
  s.append ((Token.ofName "echo").withText format :: values)

/-- Writes the declaration of a variable, with its type by name. -/
def define (s : Script) (type : String) (n : UInt64) : Script :=
  s.append [.ofName "define", .ofName type, .ofVariable n]

/-- Writes the declaration of a variable with an initial value. -/
def defineWith (s : Script) (type : String) (n : UInt64) (value : Token) : Script :=
  (s.define type n).append [.ofName "store", value]

/-- The source text of a script. -/
def toSource (s : Script) : String :=
  Source.ofTokens s.tokens

end Script

end ColonScript
