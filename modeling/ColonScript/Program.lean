import ColonScript.Value

/-!
# Programs

A program is a list of statements over a pool of constants.  In a checked program every slot is
reached through the checks of the store; an unchecked one reaches slots directly.
-/

namespace ColonScript

/-- Whether a program checks its use of slots. -/
inductive Mode where
  | checked | unchecked
deriving DecidableEq, Repr

/-- The name of a mode. -/
def Mode.name : Mode → String
  | checked => "checked"
  | unchecked => "unchecked"

/-- Where a statement takes a value from. -/
inductive Load where
  /-- A constant by its place in the pool. -/
  | const (index : Nat)
  | reserved (r : Reserved)
  /-- A slot that must exist. -/
  | slot (r : Reference)
  /-- A slot that counts as null if it does not exist. -/
  | slotUnchecked (r : Reference)
deriving DecidableEq, Repr

/-- What a statement does. -/
inductive Action where
  /-- Declare a variable. -/
  | create (id : SlotId) (type : TypeTag)
  /-- Assign to a declared variable. -/
  | set (id : SlotId) (value : Load)
  /-- Overwrite a variable, with null if no value is given. -/
  | write (id : SlotId) (type : TypeTag) (value : Option Load)
  /-- Print values, through the format in the pool if one is given. -/
  | echo (format : Option Nat) (values : List Load)
deriving DecidableEq, Repr

/-- An action and the line that it comes from. -/
structure Statement where
  line : Nat
  action : Action
deriving DecidableEq, Repr

/-- The depth that scopes may have unless something else is said. -/
def defaultMaxDepth : Nat := 10

/-- How a tree is made into a program. -/
structure Settings where
  mode : Mode := .checked
  maxDepth : Nat := defaultMaxDepth
deriving DecidableEq, Repr

/-- A program. -/
structure Program where
  settings : Settings
  constants : List Value
  statements : List Statement
deriving DecidableEq, Repr

end ColonScript
