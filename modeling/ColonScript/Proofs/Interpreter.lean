import ColonScript.Node
import ColonScript.Program.Execution
import ColonScript.Proofs.Basic

/-!
# Direct interpretation of trees

A tree can be carried out node by node, without making it into a program: an operand is
evaluated where it stands, and a failing node gives its own line to the error.  Here that
interpreter is defined; that programs do the same is proved in `ColonScript.Proofs.Lowering`.

A tree opens no scope, so the depth that scopes may have plays no part in the interpretation
(`Tree.interpret_withDepth`).
-/

namespace ColonScript

/-! ### The interpreter -/

/-- The value of an operand.  A reference to a slot that does not exist is a fault in checked
mode and null in unchecked mode. -/
def Operand.eval (mode : Mode) (store : Store) : Operand → Except Fault Value
  | reference r =>
    match mode with
    | .checked => (store.get r).map Slot.value
    | .unchecked => .ok (store.read r)
  | literal v => .ok v
  | reserved r => .ok r.value

/-- The store after a definition.  In checked mode the variable is declared before its initial
value is evaluated, and the value is then assigned with the check of its type; in unchecked mode
the variable is overwritten. -/
def Store.define (mode : Mode) (store : Store) (id : SlotId) (type : TypeTag) :
    Option Operand → Except Fault Store
  | none =>
    match mode with
    | .checked => store.create id type
    | .unchecked => .ok (store.write id type .null)
  | some initial =>
    match mode with
    | .checked => do
      let declared ← store.create id type
      let v ← initial.eval .checked declared
      declared.set id v
    | .unchecked => do
      let v ← initial.eval .unchecked store
      .ok (store.write id type v)

/-- Prints values one after the other, or through a format. -/
def Console.echo (console : Console) (format : Option String) (values : List Value) :
    Except Failed Console :=
  match format with
  | none => console.writeAll (values.map Value.display)
  | some text => Template.print console text values

/-- Carries out a node.  The operands of an `echo` are evaluated from left to right before
anything is printed. -/
def Node.interpret (mode : Mode) (m : Machine) : Node → Except Failed Machine
  | echo _ text operands =>
    match operands.mapM (Operand.eval mode m.store) with
    | .error fault => .error (fault, m.console)
    | .ok values => (m.console.echo text values).map fun console => { m with console := console }
  | define _ type target initial =>
    Machine.update m.console (m.store.define mode target.id type initial)
  | const _ _ | format _ _ | store _ _ | passthrough _ => .ok m

/-- A failure on a given line. -/
def Failed.onLine (line : ℕ) (failed : Failed) : RunError × Console :=
  (⟨failed.1, some line⟩, failed.2)

/-- Carries out the nodes of a tree up to the first that fails. -/
def Tree.interpret (mode : Mode) (m : Machine) : Tree → Program.Ended
  | [] => .ok m
  | node :: rest => do
    let next ← (node.interpret mode m).mapError (Failed.onLine node.line)
    Tree.interpret mode next rest

/-- The state in which an interpretation starts.  No scope is opened, so none is allowed for. -/
def Machine.initial (arguments : List String) (room : Option ℕ) : Machine where
  store := { arguments := arguments, maxDepth := 0 }
  console := { room := room }

/-- What interpreting a tree prints, and its error if it fails. -/
def Tree.outcome (mode : Mode) (arguments : List String) (room : Option ℕ) (tree : Tree) :
    Program.Outcome :=
  .ofEnded (tree.interpret mode (Machine.initial arguments room))

/-! ### Successful steps -/

namespace Node

variable {mode : Mode} {m next : Machine}

/-- An `echo` succeeds if its operands have values and these can be printed. -/
lemma interpret_echo_eq_ok_iff {token : Token} {text : Option String} {operands : List Operand} :
    (Node.echo token text operands).interpret mode m = .ok next ↔
      ∃ vs console, operands.mapM (Operand.eval mode m.store) = .ok vs ∧
        m.console.echo text vs = .ok console ∧ next = ⟨m.store, console⟩ := by
  rw [interpret]
  cases operands.mapM (Operand.eval mode m.store) with
  | error fault => simp
  | ok vs =>
    cases hecho : m.console.echo text vs with
    | error failed => simp [hecho, Except.map]
    | ok console => simp [hecho, Except.map, eq_comm]

/-- A definition succeeds if the store takes it. -/
lemma interpret_define_eq_ok_iff {token : Token} {type : TypeTag} {target : Reference}
    {initial : Option Operand} :
    (Node.define token type target initial).interpret mode m = .ok next ↔
      ∃ store, m.store.define mode target.id type initial = .ok store ∧
        next = ⟨store, m.console⟩ := by
  rw [interpret]
  cases m.store.define mode target.id type initial with
  | error fault => simp [Machine.update]
  | ok store => simp [Machine.update, eq_comm]

end Node

namespace Tree

variable {mode : Mode} {m last : Machine}

/-- A tree succeeds if its first node and then the others do. -/
lemma interpret_cons_eq_ok_iff {node : Node} {rest : Tree} :
    Tree.interpret mode m (node :: rest) = .ok last ↔
      ∃ next, node.interpret mode m = .ok next ∧ rest.interpret mode next = .ok last := by
  rw [interpret]
  cases node.interpret mode m with
  | error failed => simp [Except.mapError, bind, Except.bind]
  | ok next => simp [Except.mapError, bind, Except.bind]

/-- A tree succeeds if a first part of it and then the rest do. -/
lemma interpret_append_eq_ok_iff {before after : Tree} :
    Tree.interpret mode m (before ++ after) = .ok last ↔
      ∃ next, before.interpret mode m = .ok next ∧ after.interpret mode next = .ok last := by
  induction before generalizing m with
  | nil => simp [interpret]
  | cons node rest ih =>
    rw [List.cons_append, interpret_cons_eq_ok_iff]
    simp only [interpret_cons_eq_ok_iff, ih]
    constructor
    · rintro ⟨first, hfirst, next, hnext, hlast⟩
      exact ⟨next, ⟨first, hfirst, hnext⟩, hlast⟩
    · rintro ⟨next, ⟨first, hfirst, hnext⟩, hlast⟩
      exact ⟨first, hfirst, next, hnext, hlast⟩

end Tree

/-! ### The depth of scopes -/

/-- The same store with another limit to the depth of scopes. -/
def Store.withDepth (depth : ℕ) (store : Store) : Store :=
  { store with maxDepth := depth }

/-- The same machine with another limit to the depth of scopes. -/
def Machine.withDepth (depth : ℕ) (m : Machine) : Machine :=
  { m with store := m.store.withDepth depth }

namespace Store

variable (depth : ℕ) (store : Store)

@[simp] lemma get_withDepth (r : Reference) : (store.withDepth depth).get r = store.get r := rfl

@[simp] lemma read_withDepth (r : Reference) : (store.withDepth depth).read r = store.read r := rfl

@[simp] lemma write_withDepth (id : SlotId) (type : TypeTag) (v : Value) :
    (store.withDepth depth).write id type v = (store.write id type v).withDepth depth := by
  cases id <;> rfl

@[simp] lemma create_withDepth (id : SlotId) (type : TypeTag) :
    (store.withDepth depth).create id type =
      (store.create id type).map (Store.withDepth depth) := by
  cases id with
  | argCount => rfl
  | index n =>
    rw [create, create, apply_ite (Except.map _)]
    rfl

@[simp] lemma set_withDepth (id : SlotId) (v : Value) :
    (store.withDepth depth).set id v = (store.set id v).map (Store.withDepth depth) := by
  cases id with
  | argCount => rfl
  | index n =>
    have hvars : (store.withDepth depth).scope.vars = store.scope.vars := rfl
    simp only [set, hvars]
    cases store.scope.vars.get? n with
    | none => rfl
    | some slot =>
      dsimp only
      split_ifs <;> rfl

end Store

/-- Evaluation does not depend on the depth of scopes. -/
@[simp] lemma Operand.eval_withDepth (mode : Mode) (depth : ℕ) (store : Store) :
    Operand.eval mode (store.withDepth depth) = Operand.eval mode store := by
  funext o
  cases o with
  | reference r => cases mode <;> simp [eval]
  | literal v => rfl
  | reserved r => rfl

/-- A definition does not depend on the depth of scopes. -/
@[simp] lemma Store.define_withDepth (mode : Mode) (depth : ℕ) (store : Store) (id : SlotId)
    (type : TypeTag) (initial : Option Operand) :
    (store.withDepth depth).define mode id type initial =
      (store.define mode id type initial).map (Store.withDepth depth) := by
  cases initial with
  | none => cases mode <;> simp [define, Except.map]
  | some o =>
    cases mode with
    | checked =>
      simp only [define, create_withDepth]
      cases store.create id type with
      | error fault => rfl
      | ok declared =>
        simp only [Except.map, bind, Except.bind, Operand.eval_withDepth, set_withDepth]
        cases o.eval .checked declared <;> rfl
    | unchecked =>
      simp only [define, Operand.eval_withDepth, write_withDepth]
      cases o.eval .unchecked store <;> rfl

/-- A node does not depend on the depth of scopes. -/
lemma Node.interpret_withDepth (mode : Mode) (depth : ℕ) (m : Machine) (node : Node) :
    node.interpret mode (m.withDepth depth) =
      (node.interpret mode m).map (Machine.withDepth depth) := by
  cases node with
  | echo token text operands =>
    simp only [interpret, Machine.withDepth, Operand.eval_withDepth]
    cases operands.mapM (Operand.eval mode m.store) with
    | error fault => rfl
    | ok values =>
      dsimp only
      cases m.console.echo text values <;> rfl
  | define token type target initial =>
    simp only [interpret, Machine.withDepth, Store.define_withDepth]
    cases m.store.define mode target.id type initial <;> rfl
  | const token v => rfl
  | format token text => rfl
  | store token text => rfl
  | passthrough token => rfl

/-- A tree does not depend on the depth of scopes. -/
lemma Tree.interpret_withDepth (mode : Mode) (depth : ℕ) (m : Machine) (tree : Tree) :
    tree.interpret mode (m.withDepth depth) =
      (tree.interpret mode m).map (Machine.withDepth depth) := by
  induction tree generalizing m with
  | nil => rfl
  | cons node rest ih =>
    rw [interpret, interpret, Node.interpret_withDepth]
    cases node.interpret mode m with
    | error failed => rfl
    | ok next => exact ih next

end ColonScript
