import ColonScript.Text.Position
import ColonScript.Token

/-!
# Source text from tokens

Tokens are written one after the other, each after a colon.  Line ends are put between them
until each token stands on its line; a token whose line has already passed follows directly.
A text that is not empty ends with a line end.
-/

namespace ColonScript.Source

/-- A token with its colon. -/
def spelled (t : Token) : List Char :=
  ':' :: t.kind.chars

/-- The text of tokens that are written from the given line on. -/
def chars (line : Nat) : List Token → List Char
  | [] => []
  | t :: rest =>
    List.replicate (t.line - line) '\n' ++ spelled t ++
      chars (max line t.line + Text.lineBreaks (spelled t)) rest

/-- The source text of some tokens. -/
def ofTokens (tokens : List Token) : String :=
  if tokens.isEmpty then "" else String.ofList (chars 1 tokens ++ ['\n'])

end ColonScript.Source
