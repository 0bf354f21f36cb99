import ColonScript.Decimal.Layout
import ColonScript.Text.Blank
import ColonScript.Text.Quoted
import ColonScript.Token

/-!
# Values

A value is a 64-bit integer, a binary64 number, a text, or null.  Literals become values by
`Value.ofArgument`.  A value of any type can be viewed as a text, as an integer and as a
number; what cannot be read counts as zero.
-/

namespace ColonScript

/-- A value at run time. -/
inductive Value where
  | static (n : Int64)
  | dynamic (x : Binary64)
  | text (s : String)
  | null
deriving DecidableEq, Repr

/-- The type of a slot or of a value.  Only the first four are types of values. -/
inductive TypeTag where
  | static | dynamic | text | null | fn | list | dict | obj
deriving DecidableEq, Repr

/-- The name of a type in listings and messages. -/
def TypeTag.name : TypeTag → String
  | static => "static"
  | dynamic => "dynamic"
  | text => "text"
  | null => "null"
  | fn => "fn"
  | list => "list"
  | dict => "dict"
  | obj => "obj"

/-- The names that stand for a fixed value. -/
inductive Reserved where
  | trueValue | falseValue | nullValue | defaultValue
deriving DecidableEq, Repr

namespace Reserved

/-- Every reserved name, in the order of listings. -/
def all : List Reserved := [trueValue, falseValue, nullValue, defaultValue]

/-- The spelling of a reserved name. -/
def name : Reserved → String
  | trueValue => "true"
  | falseValue => "false"
  | nullValue => "null"
  | defaultValue => "default"

/-- The value of a reserved name. -/
def value : Reserved → Value
  | trueValue => .static 1
  | falseValue | defaultValue => .static 0
  | nullValue => .null

end Reserved

/-- Why an argument is not a value. -/
inductive LiteralFault where
  /-- Arguments of this kind have no value. -/
  | notAValue (kind : ArgKind)
  /-- The integer does not fit in 64 bits. -/
  | integerRange (literal : String)
  /-- The number cannot be read. -/
  | badNumber (literal : String)
deriving DecidableEq, Repr

/-- The wording of a fault. -/
def LiteralFault.message : LiteralFault → String
  | notAValue kind => s!"argument of type {kind.name} cannot be used as a value"
  | integerRange literal => s!"integer literal {literal} is out of range"
  | badNumber literal => s!"invalid float literal {literal}"

/-- An argument on some line that is not a value. -/
structure LiteralError where
  fault : LiteralFault
  line : Nat
deriving DecidableEq, Repr

/-- The wording of an error. -/
def LiteralError.message (e : LiteralError) : String :=
  s!"{e.fault.message} at line {e.line}"

namespace Value

/-- The type of a value. -/
def tag : Value → TypeTag
  | static _ => .static
  | dynamic _ => .dynamic
  | text _ => .text
  | null => .null

/-- The text that an argument payload stands for. -/
def ofPayload (payload : String) : String :=
  String.ofList (Text.Quoted.unescape payload.toList)

/-- The value of an argument found on the given line. -/
def ofArgument (a : Argument) (line : Nat) : Except LiteralError Value :=
  match a.kind with
  | .text => .ok (text (ofPayload a.payload))
  | .static =>
    match Decimal.int64? a.payload.toList with
    | some n => .ok (static n)
    | none => .error ⟨.integerRange a.payload, line⟩
  | .dynamic =>
    match Binary64.read? a.payload.toList with
    | some x => .ok (dynamic x)
    | none => .error ⟨.badNumber a.payload, line⟩
  | kind => .error ⟨.notAValue kind, line⟩

/-- The text of a value.  A number is written plainly and null is empty. -/
def display : Value → String
  | static n => toString n.toInt
  | dynamic x => Decimal.Layout.plain.render x
  | text s => s
  | null => ""

/-- A value as an integer: a number loses its fraction, a text is read between its blanks. -/
def toInt : Value → Int64
  | static n => n
  | dynamic x => x.truncate
  | text s => (Decimal.int64? (Text.trim s.toList)).getD 0
  | null => 0

/-- A value as a number: an integer is rounded, a text is read between its blanks. -/
def toNumber : Value → Binary64
  | static n => Binary64.ofInt n.toInt
  | dynamic x => x
  | text s => (Binary64.read? (Text.trim s.toList)).getD .zero
  | null => .zero

end Value

end ColonScript
