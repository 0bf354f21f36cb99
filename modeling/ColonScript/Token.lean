import ColonScript.Decimal.Numeral

/-!
# Tokens

A script is a sequence of tokens, each written after a colon.  A token is a reference to a
slot, such as `~0`, `^&12` or `~-1`, or a command with an optional argument, such as `echo` or
`const@"hi"`.

Besides the types this file holds the spelling of tokens, without the colon before them.
-/

namespace ColonScript

/-- What a reference refers to. -/
inductive Sigil where
  /-- A variable, written `~`. -/
  | var
  /-- A function, written `&`. -/
  | fn
deriving DecidableEq, Repr

/-- Which slot a reference refers to. -/
inductive SlotId where
  /-- A numbered slot. -/
  | index (n : UInt64)
  /-- The slot that holds the number of program arguments, written `-1`. -/
  | argCount
deriving DecidableEq, Repr

/-- A reference to a slot. -/
structure Reference where
  sigil : Sigil
  id : SlotId
  /-- Whether the slot is looked up one scope further out, written `^`. -/
  parent : Bool
deriving DecidableEq, Repr

/-- The kinds of arguments, in the order in which they are tried. -/
inductive ArgKind where
  /-- Quoted text. -/
  | text
  /-- A run of letters and underscores. -/
  | word
  /-- Digits after a tilde. -/
  | index
  /-- Digits with a point. -/
  | dynamic
  /-- Digits. -/
  | static
  /-- Anything else up to the next colon or blank. -/
  | unknown
deriving DecidableEq, Repr

/-- The argument of a command.  The payload is kept as it was written, without the quotes of a
text and without the tilde of an index. -/
structure Argument where
  kind : ArgKind
  payload : String
deriving DecidableEq, Repr

/-- The command names that the language knows. -/
inductive Keyword where
  | define | func | fn | static | dynamic | text | list | dict | obj
  | const | trueValue | falseValue | nullValue
  | echo | scope | endScope | caseOf | cycle | repeatLoop
  | format | store | toMark | fromMark | throughMark | intoMark
deriving DecidableEq, Repr

namespace Keyword

/-- Every keyword once. -/
def all : List Keyword :=
  [define, func, fn, static, dynamic, text, list, dict, obj, const, trueValue, falseValue,
   nullValue, echo, scope, endScope, caseOf, cycle, repeatLoop, format, store, toMark, fromMark,
   throughMark, intoMark]

/-- The spelling of a keyword. -/
def word : Keyword → String
  | define => "define"
  | func => "func"
  | fn => "fn"
  | static => "static"
  | dynamic => "dynamic"
  | text => "text"
  | list => "list"
  | dict => "dict"
  | obj => "obj"
  | const => "const"
  | trueValue => "true"
  | falseValue => "false"
  | nullValue => "null"
  | echo => "echo"
  | scope => "scope"
  | endScope => "end"
  | caseOf => "case"
  | cycle => "cycle"
  | repeatLoop => "repeat"
  | format => "format"
  | store => "store"
  | toMark => "to"
  | fromMark => "from"
  | throughMark => "through"
  | intoMark => "into"

/-- The keyword with a given spelling. -/
def ofWord? (w : String) : Option Keyword :=
  all.find? (·.word == w)

@[simp] theorem ofWord?_word (k : Keyword) : ofWord? k.word = some k := by
  cases k <;> decide

end Keyword

/-- The name of a command: a keyword, or a name without a meaning of its own.  The second form
may hold the spelling of a keyword; it is then not that keyword. -/
inductive CommandName where
  | keyword (k : Keyword)
  | other (word : String)
deriving DecidableEq, Repr

namespace CommandName

/-- The spelling of a command name. -/
def word : CommandName → String
  | keyword k => k.word
  | other w => w

/-- The command name that a lowercase spelling stands for. -/
def ofWord (w : String) : CommandName :=
  match Keyword.ofWord? w with
  | some k => keyword k
  | none => other w

@[simp] theorem word_ofWord (w : String) : (ofWord w).word = w := by
  unfold ofWord Keyword.ofWord?
  split
  · next k hfound => simpa [word] using List.find?_some hfound
  · rfl

end CommandName

/-- A command with its argument, if it has one. -/
structure Command where
  name : CommandName
  argument : Option Argument
deriving DecidableEq, Repr

/-- A token apart from its place. -/
inductive TokenKind where
  | reference (r : Reference)
  | command (c : Command)
deriving DecidableEq, Repr

/-- A token and the line of the colon before it. -/
structure Token where
  kind : TokenKind
  line : Nat
deriving DecidableEq, Repr

/-! ### Spelling -/

/-- The character of a sigil. -/
def Sigil.char : Sigil → Char
  | var => '~'
  | fn => '&'

/-- The spelling of a slot. -/
def SlotId.chars : SlotId → List Char
  | index n => Decimal.digits n.toNat
  | argCount => ['-', '1']

/-- The spelling of a reference without the mark for the outer scope. -/
def Reference.nameChars (r : Reference) : List Char :=
  r.sigil.char :: r.id.chars

/-- The spelling of a reference. -/
def Reference.chars (r : Reference) : List Char :=
  if r.parent then '^' :: r.nameChars else r.nameChars

/-- The spelling of an argument: a text gets its quotes back and an index its tilde. -/
def Argument.chars (a : Argument) : List Char :=
  match a.kind with
  | .text => '"' :: a.payload.toList ++ ['"']
  | .index => '~' :: a.payload.toList
  | .word | .dynamic | .static | .unknown => a.payload.toList

/-- The spelling of a command. -/
def Command.chars (c : Command) : List Char :=
  match c.argument with
  | some a => c.name.word.toList ++ '@' :: a.chars
  | none => c.name.word.toList

/-- The spelling of a token kind, without the colon. -/
def TokenKind.chars : TokenKind → List Char
  | reference r => r.chars
  | command c => c.chars

/-- The spelling of a token, without the colon. -/
def Token.text (t : Token) : String :=
  String.ofList t.kind.chars

/-- The spelling of a reference. -/
def Reference.text (r : Reference) : String :=
  String.ofList r.chars

/-- The spelling of a slot. -/
def SlotId.text (id : SlotId) : String :=
  String.ofList id.chars

/-- The name of an argument kind in messages. -/
def ArgKind.name : ArgKind → String
  | text => "text"
  | word => "bare word"
  | index => "index"
  | dynamic => "dynamic"
  | static => "static"
  | unknown => "unknown"

/-! ### Views -/

namespace Token

/-- The reference that a token is, if it is one. -/
def reference? (t : Token) : Option Reference :=
  match t.kind with
  | .reference r => some r
  | .command _ => none

/-- The command that a token is, if it is one. -/
def command? (t : Token) : Option Command :=
  match t.kind with
  | .reference _ => none
  | .command c => some c

/-- The argument of a token, if it has one. -/
def argument? (t : Token) : Option Argument :=
  t.command?.bind Command.argument

/-- The name by which tokens are classified: `var` for a reference, otherwise the spelling of
the command name. -/
def kindName (t : Token) : String :=
  match t.kind with
  | .reference _ => "var"
  | .command c => c.name.word

/-- Whether a token is a command of the given name. -/
def isNamed (t : Token) (name : CommandName) : Bool :=
  match t.kind with
  | .reference _ => false
  | .command c => c.name == name

end Token

end ColonScript
