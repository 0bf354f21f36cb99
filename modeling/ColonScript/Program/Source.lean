import ColonScript.Block
import ColonScript.Error
import ColonScript.Program.Lowering

/-!
# Programs from source text

A source text is cut into tokens, the tokens become a tree, and the tree becomes a program.  A
source text without tokens is refused.
-/

namespace ColonScript

/-- The tokens of a source text that has at least one. -/
def Token.ofSource (source : String) : Except Error (List Token) :=
  match tokenizeSome source with
  | .ok tokens => .ok tokens
  | .error e => .error (.source e)

/-- The tokens of a source text and their tree. -/
def Tree.parse (source : String) : Except Error (List Token × Tree) :=
  match Token.ofSource source with
  | .error e => .error e
  | .ok tokens =>
    match ofTokens tokens with
    | .error e => .error (.build e)
    | .ok tree => .ok (tokens, tree)

/-- A source text is made into a tree if it has tokens and these are built into the tree. -/
theorem Tree.parse_eq_ok_iff {source : String} {tokens : List Token} {tree : Tree} :
    parse source = .ok (tokens, tree) ↔
      Token.tokenize source = .ok tokens ∧ tokens ≠ [] ∧ ofTokens tokens = .ok tree := by
  unfold parse Token.ofSource Token.tokenizeSome
  cases Token.tokenize source with
  | error e => simp
  | ok found =>
    cases found with
    | nil => simp +contextual [eq_comm]
    | cons t rest =>
      cases hbuilt : ofTokens (t :: rest) with
      | error e => simp +contextual [eq_comm, hbuilt]
      | ok nodes => simp +contextual [eq_comm, hbuilt]

/-- The tree of a source text. -/
def Tree.ofSource (source : String) : Except Error Tree :=
  (parse source).map Prod.snd

/-- The program of a source text. -/
def Program.ofSource (source : String) (settings : Settings) : Except Error Program :=
  (Tree.ofSource source).map (ofTree · settings)

end ColonScript
