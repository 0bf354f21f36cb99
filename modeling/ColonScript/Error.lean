import ColonScript.Fault
import ColonScript.Lexeme
import ColonScript.Node.Violation

/-!
# Errors

An error names the stage at which the way from a source text to the output of its program ended.
-/

namespace ColonScript

/-- Why something asked for cannot be given. -/
inductive Error where
  | source (e : SourceError)
  | build (e : BuildError)
  | run (e : RunError)
  /-- There is no backend of that name. -/
  | unknownBackend (name : String)
deriving DecidableEq, Repr

/-- The wording of an error. -/
def Error.message : Error → String
  | source e => e.message
  | build e => e.message
  | run e => e.message
  | unknownBackend name => s!"unknown language '{name}'"

end ColonScript
