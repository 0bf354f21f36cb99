import ColonScript.Lexeme.Form
import ColonScript.Text.Position

/-!
# Lexemes

A source text is cut into pieces from left to right: at a colon where a form can be read, that
form is a piece, and every other character is skipped.  Each form is a lexeme, which has a
place in the text and, unless it was written with two colons, a token.
-/

namespace ColonScript

/-- Why a source has no tokens to work with. -/
inductive SourceError where
  /-- There is no text at all. -/
  | empty
  /-- No token was found in the text. -/
  | tokenless
deriving DecidableEq, Repr

/-- The wording of an error. -/
def SourceError.message : SourceError → String
  | empty => "no code given, empty or wrong type"
  | tokenless => "invalid state: tokenizer returned no tokens"

/-- A piece of a source text. -/
inductive Piece where
  /-- A character that belongs to no form. -/
  | skipped (c : Char)
  /-- A form and the token kind that it stands for, if any. -/
  | form (text : List Char) (kind : Option TokenKind)
deriving DecidableEq, Repr

/-- The characters of a piece. -/
def Piece.chars : Piece → List Char
  | skipped c => [c]
  | form text _ => text

/-- The pieces of a text, from left to right. -/
def Piece.segment (cs : List Char) : List Piece :=
  match cs with
  | [] => []
  | c :: rest =>
    match _hfound : Lexeme.form? (c :: rest) with
    | some m => form m.text m.value :: segment m.rest
    | none => skipped c :: segment rest
termination_by cs.length
decreasing_by
  · exact Lexeme.length_rest_lt _hfound
  · simp

/-- A stretch of the source, in bytes, that was read as a form. -/
structure Lexeme where
  start : Nat
  stop : Nat
  /-- The token that the form stands for; a form after two colons stands for none. -/
  token : Option Token
deriving DecidableEq, Repr

namespace Lexeme

/-- The lexemes among some pieces that start at the given position. -/
def locate (p : Text.Position) : List Piece → List Lexeme
  | [] => []
  | .skipped c :: rest => locate (p.step c) rest
  | .form text kind :: rest =>
    let after := p.advance text
    ⟨p.offset, after.offset, kind.map (⟨·, p.line⟩)⟩ :: locate after rest

/-- The lexemes of a source text. -/
def scan (source : String) : Except SourceError (List Lexeme) :=
  if source.isEmpty then .error .empty else .ok (locate {} (Piece.segment source.toList))

end Lexeme

/-- The tokens of a source text. -/
def Token.tokenize (source : String) : Except SourceError (List Token) :=
  (Lexeme.scan source).map (·.filterMap Lexeme.token)

/-- The tokens of a source text that has at least one. -/
def Token.tokenizeSome (source : String) : Except SourceError (List Token) :=
  match tokenize source with
  | .ok [] => .error .tokenless
  | result => result

end ColonScript
