import ColonScript.Program.Listing
import ColonScript.Program.Source
import ColonScript.Source

/-!
# Sessions

A session holds one source text that has been made into a tree.  It compiles the tree for a
backend when it is asked to, and gives the same output again when it is asked again.  A change
of the depth limit forgets all outputs.
-/

namespace ColonScript

/-- What a tree can be compiled to. -/
inductive Backend where
  /-- A program with checks. -/
  | checked
  /-- A program without checks. -/
  | unchecked
  /-- Source text. -/
  | source
deriving DecidableEq, Repr

namespace Backend

/-- Every backend once. -/
def all : List Backend := [checked, unchecked, source]

/-- The name of a backend. -/
def name : Backend → String
  | checked => "checked"
  | unchecked => "unchecked"
  | source => "source"

/-- The backend with a name, in any case. -/
def ofName? (s : String) : Option Backend :=
  all.find? (·.name == s.toLower)

/-- The backend with a name, in any case, or the error that there is none. -/
def ofName (s : String) : Except Error Backend :=
  match ofName? s with
  | some b => .ok b
  | none => .error (.unknownBackend s)

end Backend

/-- What a backend gives. -/
inductive Output where
  | program (p : Program)
  | source (text : String)
deriving DecidableEq, Repr

namespace Output

/-- The program in an output, if it is one. -/
def program? : Output → Option Program
  | program p => some p
  | source _ => none

/-- The text of an output: the listing of a program, or the source text itself. -/
def text : Output → String
  | program p => p.listing
  | source text => text

end Output

/-- A source text, what was made of it, and the outputs that have been asked for. -/
structure Session where
  source : String
  tokens : List Token
  tree : Tree
  maxDepth : Nat := defaultMaxDepth
  outputs : List (Backend × Output) := []

namespace Session

/-- Opens a session on a source text. -/
def start (source : String) : Except Error Session :=
  (Tree.parse source).map fun (tokens, tree) => { source, tokens, tree }

/-- Sets the depth limit and forgets all outputs. -/
def withMaxDepth (s : Session) (maxDepth : Nat) : Session :=
  { s with maxDepth := maxDepth, outputs := [] }

/-- What a backend gives for the tree of a session. -/
def output (s : Session) : Backend → Output
  | .checked => .program (.ofTree s.tree ⟨.checked, s.maxDepth⟩)
  | .unchecked => .program (.ofTree s.tree ⟨.unchecked, s.maxDepth⟩)
  | .source => .source (Source.ofTokens s.tokens)

/-- The output for a backend, and the session that remembers it. -/
def compile (s : Session) (b : Backend) : Output × Session :=
  match s.outputs.lookup b with
  | some output => (output, s)
  | none =>
    let output := s.output b
    (output, { s with outputs := (b, output) :: s.outputs })

/-- The output for the backend with a name, or the error that there is none, and the session
after that. -/
def compileNamed (s : Session) (name : String) : Except Error Output × Session :=
  match Backend.ofName name with
  | .ok b =>
    let (output, next) := s.compile b
    (.ok output, next)
  | .error e => (.error e, s)

/-- The outputs for some backends, one after the other. -/
def compileAll (s : Session) : List Backend → List Output × Session
  | [] => ([], s)
  | b :: rest =>
    let first := s.compile b
    let more := first.2.compileAll rest
    (first.1 :: more.1, more.2)

/-- The number of backends whose output is remembered. -/
def compiled (s : Session) : Nat :=
  s.outputs.length

end Session

end ColonScript
