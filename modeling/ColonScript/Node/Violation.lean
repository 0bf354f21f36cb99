import ColonScript.Group
import ColonScript.Value

/-!
# Violations

What can be wrong with a sequence of tokens.  A violation names the rule that is broken and
the token at which it is broken.
-/

namespace ColonScript

/-- A rule that a token breaks. -/
inductive BrokenRule where
  | mustBeLast
  | cannotBeLast
  | mustBeFirst
  | cannotBeFirst
  /-- The token before is not the expected one. -/
  | expectedAfter (what : String)
  /-- The token after is not the expected one. -/
  | expectedBefore (what : String)
  | argumentRequired
  | unexpectedArgument (expected : List ArgKind) (found : ArgKind)
  | unexpectedGroup (expected : List Group) (found : Group)
  | unexpectedKind (expected found : String)
  /-- An `echo` without operands. -/
  | missingArguments
  /-- A token that should have a value and has none. -/
  | notAValue
  /-- The target of a definition is no variable. -/
  | functionTarget
  | unexpectedEnd
deriving DecidableEq, Repr

/-- The wording of a broken rule. -/
def BrokenRule.message : BrokenRule → String
  | mustBeLast => "must be the last token"
  | cannotBeLast => "can't be the last token"
  | mustBeFirst => "must be the first token"
  | cannotBeFirst => "can't be the first token"
  | expectedAfter what => s!"must be after {what}"
  | expectedBefore what => s!"must be before {what}"
  | argumentRequired => "argument required"
  | unexpectedArgument expected found =>
    let kinds := ", ".intercalate (expected.map ArgKind.name)
    s!"argument of type in ({kinds}) expected, {found.name} given"
  | unexpectedGroup expected found =>
    let groups := ", ".intercalate (expected.map Group.name)
    s!"expected group in ({groups}), {found.name} given"
  | unexpectedKind expected found => s!"expected :{expected}, :{found} given"
  | missingArguments => "at least 1 argument is required"
  | notAValue => "token has no value"
  | functionTarget => "only variables can be defined"
  | unexpectedEnd => "unexpected end of input"

/-- A broken rule and the token that breaks it. -/
structure Violation where
  rule : BrokenRule
  line : Nat
  token : Token
deriving DecidableEq, Repr

namespace Violation

/-- A rule broken by a token, on the line of the token. -/
def ofToken (rule : BrokenRule) (token : Token) : Violation :=
  ⟨rule, token.line, token⟩

/-- The wording of a violation. -/
def message (v : Violation) : String :=
  s!":{v.token.text} - {v.rule.message} at line {v.line}"

end Violation

/-- Why there is no tree for some tokens. -/
inductive BuildError where
  | violation (v : Violation)
  | literal (e : LiteralError)
deriving DecidableEq, Repr

/-- The wording of an error. -/
def BuildError.message : BuildError → String
  | violation v => v.message
  | literal e => e.message

end ColonScript
