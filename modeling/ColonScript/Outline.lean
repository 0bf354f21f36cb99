import ColonScript.Node
import ColonScript.Text.Unprintable

/-!
# Outlines

The outline of a node shows all its parts on one line.  A part with named fields is written as
`Name { field: part, … }`, a part with one unnamed field as `Name(part)`, and a list between
square brackets.
-/

namespace ColonScript.Outline

/-- A part with named fields. -/
def record (name : String) (fields : List (String × String)) : String :=
  let shown := fields.map fun (label, part) => label ++ ": " ++ part
  name ++ " \x7b " ++ ", ".intercalate shown ++ " \x7d"

/-- A part with one unnamed field. -/
def variant (name part : String) : String :=
  name ++ "(" ++ part ++ ")"

/-- A part that may be missing. -/
def optional : Option String → String
  | none => "None"
  | some part => variant "Some" part

/-- A list of parts. -/
def sequence (parts : List String) : String :=
  "[" ++ ", ".intercalate parts ++ "]"

/-- A character of a quoted text.  What cannot be seen is written by its code point. -/
def quotedChar (c : Char) : String :=
  if c = '"' then "\\\""
  else if c = '\\' then "\\\\"
  else if c = '\n' then "\\n"
  else if c = '\r' then "\\r"
  else if c = '\t' then "\\t"
  else if c.toNat = 0 then "\\0"
  else if Text.isUnprintable c then
    "\\u\x7b" ++ String.ofList (Nat.toDigits 16 c.toNat) ++ "\x7d"
  else String.singleton c

/-- A text between quotes. -/
def quoted (s : String) : String :=
  "\"" ++ String.join (s.toList.map quotedChar) ++ "\""

/-- A truth value. -/
def bool (b : Bool) : String :=
  if b then "true" else "false"

/-! ### Tokens -/

/-- The outline of a slot. -/
def slotId : SlotId → String
  | .index n => variant "Index" (toString n.toNat)
  | .argCount => "Argv"

/-- The outline of a sigil. -/
def sigil : Sigil → String
  | .var => "Variable"
  | .fn => "Function"

/-- The outline of a reference. -/
def reference (r : Reference) : String :=
  record "VarRef"
    [("ref_type", sigil r.sigil), ("identifier", slotId r.id), ("parent", bool r.parent)]

/-- The outline of an argument kind. -/
def argKind : ArgKind → String
  | .text => "Text"
  | .word => "BareWord"
  | .index => "IndexRef"
  | .dynamic => "DynamicFloat"
  | .static => "StaticInt"
  | .unknown => "Unknown"

/-- The outline of an argument. -/
def argument (a : Argument) : String :=
  record "Argument" [("kind", argKind a.kind), ("value", quoted a.payload)]

/-- The outline of a command name: a keyword with a capital letter, or the name as a text. -/
def commandName : CommandName → String
  | .keyword k => k.word.capitalize
  | .other w => variant "Other" (quoted w)

/-- The outline of a command. -/
def command (c : Command) : String :=
  record "Command" [("name", commandName c.name), ("arg", optional (c.argument.map argument))]

/-- The outline of a token kind. -/
def tokenKind : TokenKind → String
  | .reference r => variant "Var" (reference r)
  | .command c => variant "Command" (command c)

/-- The outline of a token. -/
def token (t : Token) : String :=
  record "Token" [("kind", tokenKind t.kind), ("line", toString t.line)]

/-! ### Nodes -/

/-- The outline of a value. -/
def value : Value → String
  | .static n => variant "StaticInt" (toString n.toInt)
  | .dynamic x => variant "DynamicFloat" (Decimal.Layout.marked.render x)
  | .text s => variant "Text" (quoted s)
  | .null => "Null"

/-- The outline of a type. -/
def typeTag : TypeTag → String
  | .static => "StaticInt"
  | .dynamic => "DynamicFloat"
  | .text => "Text"
  | .null => "Null"
  | .fn => "Function"
  | .list => "List"
  | .dict => "Dict"
  | .obj => "Object"

/-- The outline of an operand. -/
def operand : Operand → String
  | .reference r => variant "Var" (reference r)
  | .literal v => variant "Literal" (value v)
  | .reserved r => variant "Reserved" r.name.capitalize

/-- The outline of a node. -/
def node : Node → String
  | .echo t format operands =>
    record "Echo"
      [("token", token t), ("format", optional (format.map quoted)),
       ("args", sequence (operands.map operand))]
  | .define t type target initial =>
    record "Define"
      [("token", token t), ("declared_type", typeTag type), ("target", reference target),
       ("initial_value", optional (initial.map operand))]
  | .const t v => record "Const" [("token", token t), ("value", value v)]
  | .format t text => record "Format" [("token", token t), ("value", quoted text)]
  | .store t text => record "Store" [("token", token t), ("value", quoted text)]
  | .passthrough t => variant "Passthrough" (token t)

end ColonScript.Outline
