import ColonScript.Outline
import ColonScript.Program.Execution
import ColonScript.Session

/-!
# The command line

A command is applied to each of some files in turn.  What it gives for a file goes to the
standard output; if a file cannot be read or processed, the reason goes to the standard error,
and the other files are still worked on.

Reading files is a parameter here: a function from paths to texts or messages.
-/

namespace ColonScript.CommandLine

/-- What to do with each file. -/
inductive Task where
  /-- Print the tokens. -/
  | tokens
  /-- Print the tree. -/
  | tree
  /-- Print the listing of the program. -/
  | compile
  /-- Run the program. -/
  | run
  /-- Print the source text again. -/
  | fmt
deriving DecidableEq, Repr

/-- The task with a name. -/
def Task.ofName? : String → Option Task
  | "tokens" => some tokens
  | "tree" => some tree
  | "compile" => some compile
  | "run" => some run
  | "fmt" => some fmt
  | _ => none

/-- What the words after the command say. -/
structure Options where
  settings : Settings := {}
  files : List String := []
  /-- The words after `--`. -/
  arguments : List String := []
deriving DecidableEq, Repr

/-- Reads the words after the command.  There is no result if a depth is not a number. -/
def Options.read? (o : Options) : List String → Option Options
  | [] => some o
  | "--unchecked" :: rest => read? { o with settings.mode := .unchecked } rest
  | ["--max-depth"] => none
  | "--max-depth" :: depth :: rest =>
    match Decimal.word64? depth.toList with
    | some n => read? { o with settings.maxDepth := n } rest
    | none => none
  | "--" :: rest => some { o with arguments := rest }
  | file :: rest => read? { o with files := o.files ++ [file] } rest

/-- What a command line gives. -/
structure Report where
  exit : Nat
  stdout : String
  stderr : String
deriving DecidableEq, Repr

/-- The help text. -/
def usage : String :=
  "Usage: corky <command> [options] [files...] [-- args...]\n\n" ++
  "Commands:\n" ++
  "  tokens   Print the token stream\n" ++
  "  tree     Print the syntax tree\n" ++
  "  compile  Print the target program listing\n" ++
  "  run      Run the program; args after -- are passed to it\n" ++
  "  fmt      Re-serialize the source to stdout\n\n" ++
  "Options:\n" ++
  "  --unchecked      Generate without runtime checks\n" ++
  "  --max-depth <N>  Scope depth guard (default " ++ toString defaultMaxDepth ++ ")\n\n" ++
  "Set RUST_LOG=debug for pipeline logs.\n"

/-- The tokens of a source text, which may have none. -/
def tokens (source : String) : Except Error (List Token) :=
  match Token.tokenize source with
  | .ok ts => .ok ts
  | .error e => .error (.source e)

/-- A token with its line. -/
def tokenLine (t : Token) : String :=
  toString t.line ++ "\t:" ++ t.text ++ "\n"

/-- A node with its line. -/
def nodeLine (n : Node) : String :=
  lineNumber n.line ++ "  " ++ Outline.node n ++ "\n"

/-- The backend for a mode. -/
def backend : Mode → Backend
  | .checked => .checked
  | .unchecked => .unchecked

/-- The output for a source text. -/
def output (o : Options) (source : String) : Except Error Output :=
  (Session.start source).map fun session =>
    ((session.withMaxDepth o.settings.maxDepth).compile (backend o.settings.mode)).1

/-- What a task gives for a source text. -/
def process (task : Task) (o : Options) (source : String) : Except Error String :=
  match task with
  | .tokens => (tokens source).map fun ts => String.join (ts.map tokenLine)
  | .fmt => (tokens source).map Source.ofTokens
  | .tree => (Tree.ofSource source).map fun tree => String.join (tree.map nodeLine)
  | .compile => (output o source).map Output.text
  | .run =>
    match output o source with
    | .error e => .error e
    | .ok (.source text) => .ok text
    | .ok (.program p) =>
      match p.run o.arguments with
      | .ok text => .ok text
      | .error e => .error (.run e)

/-- What a task gives for the file at a path, or a message. -/
def processFile (read : String → Except String String) (task : Task) (o : Options)
    (path : String) : Except String String :=
  match read path with
  | .error message => .error message
  | .ok source =>
    match process task o source with
    | .ok text => .ok text
    | .error e => .error e.message

/-- Adds what a task gives for one more file. -/
def Report.add (report : Report) (path : String) : Except String String → Report
  | .ok text => { report with stdout := report.stdout ++ text }
  | .error message =>
    { report with exit := 1, stderr := report.stderr ++ path ++ ": " ++ message ++ "\n" }

/-- Does a task for each file. -/
def processAll (read : String → Except String String) (task : Task) (o : Options) : Report :=
  o.files.foldl (fun report path => report.add path (processFile read task o path)) ⟨0, "", ""⟩

/-- The report on a command line that cannot be followed. -/
def refuse (message : String) : Report :=
  ⟨2, "", message⟩

/-- Follows a command line, given as the words after the name of the program. -/
def run (read : String → Except String String) : List String → Report
  | [] => refuse usage
  | command :: rest =>
    if command = "--help" ∨ command = "-h" then refuse usage
    else match Options.read? {} rest with
      | none => refuse "Error: --max-depth needs a number\n"
      | some o =>
        match Task.ofName? command with
        | none => refuse s!"Unknown command: {command}\n"
        | some task =>
          if o.files.isEmpty then refuse "Error: no files specified\n"
          else processAll read task o

end ColonScript.CommandLine
