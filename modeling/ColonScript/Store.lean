import ColonScript.Fault

/-!
# The store

A running program keeps its variables in nested scopes.  A scope has a table of slots for
variables and one for functions; a slot has a type and a value.  The program arguments lie
outside the outermost scope and are read as its parent.

The checked operations are `create`, `set` and `get`: slots are created in order and hold only
null or values of their type.  The unchecked ones, `write` and `read`, never fail.
-/

namespace ColonScript

/-- A typed place for a value. -/
structure Slot where
  type : TypeTag
  value : Value
deriving DecidableEq, Repr

/-- The slot of a program argument. -/
def Slot.ofText (text : String) : Slot :=
  ⟨.text, .text text⟩

/-- Slots by number, in the order in which they were first written. -/
structure Table where
  entries : List (UInt64 × Slot) := []
deriving DecidableEq, Repr

namespace Table

/-- The slot with a number. -/
def get? (t : Table) (n : UInt64) : Option Slot :=
  t.entries.lookup n

/-- Whether there is a slot with a number. -/
def contains (t : Table) (n : UInt64) : Bool :=
  (t.get? n).isSome

/-- Puts a slot in the place of the one with the same number, or else at the end. -/
def insertEntry (n : UInt64) (s : Slot) : List (UInt64 × Slot) → List (UInt64 × Slot)
  | [] => [(n, s)]
  | (m, t) :: rest => if n = m then (n, s) :: rest else (m, t) :: insertEntry n s rest

/-- The table with one slot written. -/
def insert (t : Table) (n : UInt64) (s : Slot) : Table :=
  ⟨insertEntry n s t.entries⟩

end Table

/-- The slots of one scope. -/
structure Scope where
  vars : Table := {}
  fns : Table := {}
deriving DecidableEq, Repr

/-- The table that a sigil refers to. -/
def Scope.table (s : Scope) : Sigil → Table
  | .var => s.vars
  | .fn => s.fns

/-- The state of the variables of a running program. -/
structure Store where
  /-- The innermost scope. -/
  scope : Scope := {}
  /-- The scopes around it, from the inside out. -/
  outer : List Scope := []
  /-- The program arguments. -/
  arguments : List String
  /-- The greatest depth that a scope may have. -/
  maxDepth : Nat
deriving DecidableEq, Repr

namespace Store

/-- The depth of the innermost scope; the outermost one has depth zero. -/
def depth (s : Store) : Nat :=
  s.outer.length

/-- Opens a new scope. -/
def enter (s : Store) : Except Fault Store :=
  if s.maxDepth ≤ s.depth then .error (.tooDeep s.maxDepth)
  else .ok { s with scope := {}, outer := s.scope :: s.outer }

/-- Drops the innermost scope. -/
def leave (s : Store) : Except Fault Store :=
  match s.outer with
  | [] => .error .outermost
  | scope :: outer => .ok { s with scope := scope, outer := outer }

/-- The store with a variable of the innermost scope written. -/
def put (s : Store) (n : UInt64) (slot : Slot) : Store :=
  { s with scope := { s.scope with vars := s.scope.vars.insert n slot } }

/-- The name of a numbered variable in messages. -/
def variableName (n : UInt64) : String :=
  String.ofList (Reference.nameChars ⟨.var, .index n, false⟩)

/-- Declares a variable of the innermost scope and gives it the value null.  The variable before
it must have been declared. -/
def create (s : Store) (id : SlotId) (type : TypeTag) : Except Fault Store :=
  match id with
  | .argCount => .error .readOnly
  | .index n =>
    if n = 0 ∨ s.scope.vars.contains (n - 1) then .ok (s.put n ⟨type, .null⟩)
    else .error (.undefined (variableName (n - 1)) s.depth)

/-- Assigns to a declared variable of the innermost scope.  Null can be assigned to every type. -/
def set (s : Store) (id : SlotId) (value : Value) : Except Fault Store :=
  match id with
  | .argCount => .error .readOnly
  | .index n =>
    match s.scope.vars.get? n with
    | none => .error (.undefined (variableName n) s.depth)
    | some slot =>
      if value.tag = .null ∨ value.tag = slot.type then .ok (s.put n { slot with value := value })
      else .error (.typeMismatch slot.type value.tag)

/-- The slot that holds the number of program arguments. -/
def argumentCount (s : Store) : Slot :=
  ⟨.static, .static (Int64.ofIntClamp s.arguments.length)⟩

/-- The slot of the program argument with a number. -/
def argument? (s : Store) (n : UInt64) : Option Slot :=
  (s.arguments[n.toNat]?).map .ofText

/-- The slot with a number where a reference is looked up.  A parent reference looks one scope
further out, and from the outermost scope at the program arguments. -/
def slot? (s : Store) (r : Reference) (n : UInt64) : Option Slot :=
  match r.parent, s.outer with
  | false, _ => (s.scope.table r.sigil).get? n
  | true, [] => s.argument? n
  | true, scope :: _ => (scope.table r.sigil).get? n

/-- The depth at which references are looked up; there is none for the program arguments. -/
def lookupDepth (s : Store) (parent : Bool) : Option Nat :=
  match parent, s.outer with
  | false, _ => some s.depth
  | true, [] => none
  | true, _ :: outer => some outer.length

/-- The slot that a reference refers to. -/
def get (s : Store) (r : Reference) : Except Fault Slot :=
  match r.id with
  | .argCount => .ok s.argumentCount
  | .index n =>
    match s.slot? r n with
    | some slot => .ok slot
    | none => .error (.undefined (String.ofList r.nameChars) (s.lookupDepth r.parent))

/-- Writes a variable of the innermost scope whether it was declared or not.  The argument count
is left as it is. -/
def write (s : Store) (id : SlotId) (type : TypeTag) (value : Value) : Store :=
  match id with
  | .argCount => s
  | .index n => s.put n ⟨type, value⟩

/-- The value that a reference refers to, null if there is none. -/
def read (s : Store) (r : Reference) : Value :=
  match s.get r with
  | .ok slot => slot.value
  | .error _ => .null

end Store

end ColonScript
