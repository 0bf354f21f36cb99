import ColonScript.Program
import ColonScript.Store
import ColonScript.Template

/-!
# Running programs

A program runs statement by statement from an empty store and stops at the first failure, which
gets the line of its statement.  An `echo` takes all its values before it prints.  What was
printed before a failure stays printed.
-/

namespace ColonScript

/-- The state of a running program. -/
structure Machine where
  store : Store
  console : Console
deriving DecidableEq, Repr

/-- The machine after a change of its store, or the fault of the change with the output so far. -/
def Machine.update (console : Console) : Except Fault Store → Except Failed Machine
  | .ok store => .ok ⟨store, console⟩
  | .error fault => .error (fault, console)

namespace Program

/-- A constant by its place; null if there is none. -/
def constant (p : Program) (index : Nat) : Value :=
  p.constants.getD index .null

/-- The value of a load. -/
def load (p : Program) (store : Store) : Load → Except Fault Value
  | .const index => .ok (p.constant index)
  | .reserved r => .ok r.value
  | .slot r => (store.get r).map Slot.value
  | .slotUnchecked r => .ok (store.read r)

/-- The values of some loads, or the first fault among them. -/
def loadAll (p : Program) (store : Store) : List Load → Except Fault (List Value)
  | [] => .ok []
  | l :: rest =>
    match p.load store l with
    | .error fault => .error fault
    | .ok v => (p.loadAll store rest).map (v :: ·)

/-- Prints values, through a format if one is given. -/
def print (p : Program) (console : Console) (format : Option Nat) (values : List Value) :
    Except Failed Console :=
  match format with
  | some index => Template.print console (p.constant index).display values
  | none => console.writeAll (values.map Value.display)

/-- Carries out an action. -/
def step (p : Program) (m : Machine) : Action → Except Failed Machine
  | .create id type => Machine.update m.console (m.store.create id type)
  | .set id value =>
    match p.load m.store value with
    | .error fault => .error (fault, m.console)
    | .ok v => Machine.update m.console (m.store.set id v)
  | .write id type none => .ok { m with store := m.store.write id type .null }
  | .write id type (some value) =>
    match p.load m.store value with
    | .error fault => .error (fault, m.console)
    | .ok v => .ok { m with store := m.store.write id type v }
  | .echo format values =>
    match p.loadAll m.store values with
    | .error fault => .error (fault, m.console)
    | .ok vs => (p.print m.console format vs).map fun console => { m with console := console }

/-- The state in which a run ends, or its error with the output so far. -/
abbrev Ended := Except (RunError × Console) Machine

/-- Carries out some statements. -/
def steps (p : Program) (m : Machine) : List Statement → Ended
  | [] => .ok m
  | s :: rest =>
    match p.step m s.action with
    | .error (fault, console) => .error (RunError.onLine ⟨fault, none⟩ s.line, console)
    | .ok m => p.steps m rest

/-- The state before a run with the given program arguments, on an output with the given room. -/
def start (p : Program) (arguments : List String) (room : Option Nat) : Machine where
  store := { arguments := arguments, maxDepth := p.settings.maxDepth }
  console := { room := room }

/-- What a run has printed, and its error if it failed. -/
structure Outcome where
  written : String
  error : Option RunError
deriving DecidableEq, Repr

/-- The outcome of a run that has ended. -/
def Outcome.ofEnded : Ended → Outcome
  | .ok m => ⟨m.console.written, none⟩
  | .error (e, console) => ⟨console.written, some e⟩

/-- Runs a program with an output that takes a limited number of characters, or any number. -/
def execute (p : Program) (arguments : List String) (room : Option Nat) : Outcome :=
  .ofEnded (p.steps (p.start arguments room) p.statements)

/-- Runs a program without a limit and gives all that it prints, if it does not fail. -/
def run (p : Program) (arguments : List String) : Except RunError String :=
  match p.execute arguments none with
  | ⟨written, none⟩ => .ok written
  | ⟨_, some e⟩ => .error e

end Program

end ColonScript
