import ColonScript.Store

/-!
# The store in memory

A memory holds the variables of a running program in the form in which they are changed in
place.  The scopes lie in an array with the outermost one first, and a counter of its own says
how deep the innermost one lies.

An operation runs step by step on the memory and gives back, with its result, the memory that it
leaves behind, also when it stops early: nothing is undone then.  It stops with a fault, or
because it looks for a scope at a place where there is none.  That it does what it does on a `Store`
is shown in `ColonScript.Proofs.MemoryLayout`.
-/

namespace ColonScript

/-- The variables of a running program. -/
structure Memory where
  /-- The scopes, from the outside in. -/
  scopes : Array Scope
  /-- The slots of the program arguments. -/
  arguments : List Slot
  /-- The depth of the innermost scope. -/
  depth : Nat
  /-- The greatest depth that a scope may have. -/
  maxDepth : Nat
deriving DecidableEq, Repr

namespace Memory

/-- Why an operation stops early. -/
inductive Halt where
  | fault (f : Fault)
  /-- There is no scope at the place looked at. -/
  | outside (place : Nat)
deriving DecidableEq, Repr

/-- An operation on a memory. -/
abbrev Action := EStateM Halt Memory

/-- A memory with one scope, which has no variables. -/
def new (maxDepth : Nat) (arguments : List String) : Memory where
  scopes := #[{}]
  arguments := arguments.map .ofText
  depth := 0
  maxDepth := maxDepth

/-- The scope at a place. -/
def scopeAt (place : Nat) : Action Scope := do
  match (← get).scopes[place]? with
  | some scope => return scope
  | none => throw (.outside place)

/-- Puts a variable into the scope at a place. -/
def insertAt (place : Nat) (n : UInt64) (slot : Slot) : Action Unit := do
  let scope ← scopeAt place
  let changed := { scope with vars := scope.vars.insert n slot }
  modify fun m => { m with scopes := m.scopes.setIfInBounds place changed }

/-- Opens a new scope. -/
def enter : Action Unit := do
  let m ← get
  if m.maxDepth ≤ m.depth then
    throw (.fault (.tooDeep m.maxDepth))
  modify fun m => { m with depth := m.depth + 1 }
  modify fun m => { m with scopes := m.scopes.push {} }

/-- Drops the innermost scope. -/
def leave : Action Unit := do
  if (← get).depth = 0 then
    throw (.fault .outermost)
  modify fun m => { m with scopes := m.scopes.pop }
  modify fun m => { m with depth := m.depth - 1 }

/-- Declares a variable of the innermost scope and gives it the value null.  The variable before
it must have been declared. -/
def createSlot (id : SlotId) (type : TypeTag) : Action Unit := do
  let depth := (← get).depth
  match id with
  | .argCount => throw (.fault .readOnly)
  | .index n =>
    let scope ← scopeAt depth
    if n ≠ 0 ∧ ¬ scope.vars.contains (n - 1) then
      throw (.fault (.undefined (Store.variableName (n - 1)) depth))
    insertAt depth n ⟨type, .null⟩

/-- Assigns to a declared variable of the innermost scope.  Null can be assigned to every type. -/
def setSlot (id : SlotId) (value : Value) : Action Unit := do
  let depth := (← get).depth
  match id with
  | .argCount => throw (.fault .readOnly)
  | .index n =>
    let scope ← scopeAt depth
    match scope.vars.get? n with
    | none => throw (.fault (.undefined (Store.variableName n) depth))
    | some slot =>
      if value.tag ≠ .null ∧ value.tag ≠ slot.type then
        throw (.fault (.typeMismatch slot.type value.tag))
      insertAt depth n { slot with value := value }

/-- Writes a variable of the innermost scope whether it was declared or not.  The argument count
is left as it is. -/
def writeSlot (id : SlotId) (type : TypeTag) (value : Value) : Action Unit := do
  match id with
  | .argCount => return
  | .index n => insertAt (← get).depth n ⟨type, value⟩

/-- The slot that holds the number of program arguments. -/
def argumentCount (m : Memory) : Slot :=
  ⟨.static, .static (Int64.ofIntClamp m.arguments.length)⟩

/-- The place of the scope where references are looked up; there is none for the program
arguments. -/
def lookupPlace (m : Memory) (parent : Bool) : Option Nat :=
  if ¬ parent then some m.depth
  else if m.depth = 0 then none
  else some (m.depth - 1)

/-- The slot that a reference refers to. -/
def getSlot (r : Reference) : Action Slot := do
  let m ← get
  match r.id with
  | .argCount => return m.argumentCount
  | .index n =>
    let place := m.lookupPlace r.parent
    let found ← match place with
      | some place => pure (((← scopeAt place).table r.sigil).get? n)
      | none => pure m.arguments[n.toNat]?
    match found with
    | some slot => return slot
    | none => throw (.fault (.undefined (String.ofList r.nameChars) place))

/-- The value that a reference refers to, null if there is none. -/
def readSlot (r : Reference) : Action Value :=
  tryCatch (Slot.value <$> getSlot r) fun
    | .fault _ => pure .null
    | halt => throw halt

end Memory

end ColonScript
