import ColonScript.Program

/-!
# Listings

A program is listed line by line: the compiler, the settings, the reserved names, the constants
and the statements.
-/

namespace ColonScript

/-- A value in a listing. -/
def Value.listed : Value → String
  | static n => "static " ++ toString n.toInt
  | dynamic x => "dynamic " ++ Decimal.Layout.marked.render x
  | text s => "text " ++ Text.Quoted.quote s
  | null => "null"

/-- A load in a listing. -/
def Load.listed : Load → String
  | const index => "#" ++ toString index
  | reserved r => "$" ++ r.name
  | slot r => "get(" ++ r.text ++ ")"
  | slotUnchecked r => "[" ++ r.text ++ "]"

/-- An action in a listing. -/
def Action.listed : Action → String
  | create id type => "create ~" ++ id.text ++ " " ++ type.name
  | set id value => "set ~" ++ id.text ++ " " ++ value.listed
  | write id type none => "write ~" ++ id.text ++ " " ++ type.name
  | write id type (some value) =>
    "write ~" ++ id.text ++ " " ++ type.name ++ " " ++ value.listed
  | echo none values => "echo" ++ String.join (values.map (" " ++ ·.listed))
  | echo (some format) values =>
    "echo fmt #" ++ toString format ++ String.join (values.map (" " ++ ·.listed))

/-- A line number, moved to the right so that it takes at least four places. -/
def lineNumber (n : Nat) : String :=
  let ds := Decimal.digits n
  String.ofList (List.replicate (4 - ds.length) ' ' ++ ds)

/-- A statement in a listing. -/
def Statement.listed (s : Statement) : String :=
  lineNumber s.line ++ "  " ++ s.action.listed

/-- The compiler that a listing names. -/
structure Compiler where
  name : String
  version : String
deriving DecidableEq, Repr

namespace Program

/-- The compiler of this language. -/
def compiler : Compiler := ⟨"corky-rs", "0.1.0"⟩

/-- The lines of a listing before the constants. -/
def preamble (compiler : Compiler) (settings : Settings) : List String :=
  [".compiler " ++ compiler.name ++ " " ++ compiler.version,
   ".mode " ++ settings.mode.name,
   ".scope depth 0 max " ++ toString settings.maxDepth] ++
  Reserved.all.map fun r => ".reserved " ++ r.name ++ " " ++ r.value.listed

/-- The lines of some constants that are numbered from `first` on. -/
def constantLines (first : Nat) : List Value → List String
  | [] => []
  | v :: rest =>
    (".const #" ++ toString first ++ " " ++ v.listed) :: constantLines (first + 1) rest

/-- The lines of a listing. -/
def lines (compiler : Compiler) (p : Program) : List String :=
  preamble compiler p.settings ++ constantLines 0 p.constants ++
    p.statements.map Statement.listed

/-- The listing of a program that names the given compiler. -/
def listingBy (compiler : Compiler) (p : Program) : String :=
  String.join ((lines compiler p).map (· ++ "\n"))

/-- The listing of a program. -/
def listing (p : Program) : String :=
  p.listingBy compiler

end Program

end ColonScript
