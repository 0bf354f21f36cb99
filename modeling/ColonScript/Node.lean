import ColonScript.Value

/-!
# Syntax trees

A tree is a list of nodes.  Every node keeps the token that it starts with; an `echo` and a
`define` take in some of the tokens after it.
-/

namespace ColonScript

/-- Something that has a value when a program runs. -/
inductive Operand where
  | reference (r : Reference)
  | literal (v : Value)
  | reserved (r : Reserved)
deriving DecidableEq, Repr

/-- A node of a syntax tree. -/
inductive Node where
  /-- Print the operands, through the format if there is one. -/
  | echo (token : Token) (format : Option String) (operands : List Operand)
  /-- Declare the target with a type and an optional initial value. -/
  | define (token : Token) (type : TypeTag) (target : Reference) (initial : Option Operand)
  /-- A literal that stands alone. -/
  | const (token : Token) (value : Value)
  /-- A format text that stands alone. -/
  | format (token : Token) (text : String)
  /-- A store text that stands alone. -/
  | store (token : Token) (text : String)
  /-- A token without a rule of its own. -/
  | passthrough (token : Token)
deriving DecidableEq, Repr

/-- A syntax tree. -/
abbrev Tree := List Node

namespace Node

/-- The token that a node starts with. -/
def token : Node → Token
  | echo t _ _ | define t _ _ _ | const t _ | format t _ | store t _ | passthrough t => t

/-- The line of a node. -/
def line (n : Node) : Nat :=
  n.token.line

end Node

end ColonScript
