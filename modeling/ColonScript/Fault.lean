import ColonScript.Value

/-!
# Faults of a running program

Why a step of a program fails.  A run error is a fault together with the line of the statement
that failed, once that line is known.
-/

namespace ColonScript

/-- Why a step fails. -/
inductive Fault where
  /-- The value has another type than the slot. -/
  | typeMismatch (expected found : TypeTag)
  /-- There is no such slot, at the given depth or among the program arguments. -/
  | undefined (name : String) (depth : Option Nat)
  /-- The argument count cannot be declared or assigned. -/
  | readOnly
  /-- No scope can be entered at the greatest depth. -/
  | tooDeep (max : Nat)
  /-- The outermost scope cannot be left. -/
  | outermost
  /-- A format has more directives than there are values. -/
  | missingValue (position : Nat)
  /-- The output takes no more characters. -/
  | output
deriving DecidableEq, Repr

/-- The wording of a fault. -/
def Fault.message : Fault → String
  | typeMismatch expected found => s!"type mismatch, expected {expected.name}, got {found.name}"
  | undefined name (some depth) => s!"undefined var {name} on scope {depth}"
  | undefined name none => s!"undefined program argument {name}"
  | readOnly => "~-1 is read-only"
  | tooDeep max => s!"maximum scope depth of {max} exceeded"
  | outermost => "no scope to leave"
  | missingValue position => s!"missing argument {position} for format string"
  | output => "failed to write output"

/-- A fault and the line on which it happened, if that is known. -/
structure RunError where
  fault : Fault
  line : Option Nat := none
deriving DecidableEq, Repr

namespace RunError

/-- The same error on the given line, unless it already has one. -/
def onLine (e : RunError) (line : Nat) : RunError :=
  { e with line := e.line.or (some line) }

/-- The wording of an error. -/
def message (e : RunError) : String :=
  match e.line with
  | some line => s!"{e.fault.message} at line {line}"
  | none => e.fault.message

end RunError

end ColonScript
