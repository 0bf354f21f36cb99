import ColonScript.Node
import ColonScript.Program

/-!
# Programs from trees

Every node of a tree becomes the statements that carry it out.  The literals and formats of the
tree go into a pool of constants without repetition, in the order in which they are met; the
format of an `echo` comes before its operands.  The pool finds a constant again by its key.
-/

namespace ColonScript

/-- What a constant is known by: its type and its content, where numbers count by their bits. -/
inductive Pool.Key where
  | static (n : Int64)
  | dynamic (bits : UInt64)
  | text (s : String)
  | null
deriving DecidableEq, Repr

/-- The key of a value. -/
def Value.key : Value → Pool.Key
  | static n => .static n
  | dynamic x => .dynamic x.bits
  | text s => .text s
  | null => .null

/-- The constants met so far, in order, and the place of each of them by its key. -/
structure Pool where
  values : List Value
  places : List (Pool.Key × Nat)
  /-- A key leads to the one place whose value has that key. -/
  inStep : ∀ key i, places.lookup key = some i ↔ (values[i]?).map Value.key = some key

namespace Pool

/-- The pool before any constant is met. -/
def empty : Pool where
  values := []
  places := []
  inStep := by simp

/-- A value with a new key, put at the end together with its place, keeps values and places in
step. -/
theorem inStep_push (pool : Pool) {v : Value} (hnew : pool.places.lookup v.key = none)
    (key : Key) (i : Nat) :
    ((v.key, pool.values.length) :: pool.places).lookup key = some i ↔
      ((pool.values ++ [v])[i]?).map Value.key = some key := by
  have hplace : (pool.values ++ [v])[i]? =
      if i = pool.values.length then some v else pool.values[i]? := by
    grind
  have hkept := pool.inStep key i
  rw [List.lookup_cons, hplace]
  by_cases hkey : key = v.key
  · subst hkey
    rw [hnew] at hkept
    by_cases hi : i = pool.values.length
    · simp [hi]
    · simp [hi, Ne.symm hi, ← hkept]
  · have hother : (key == v.key) = false := by simpa using hkey
    by_cases hi : i = pool.values.length
    · rw [hi, List.getElem?_eq_none (Nat.le_refl _)] at hkept
      simpa [hi, hother, Ne.symm hkey] using hkept
    · simpa [hi, hother] using hkept

/-- The place of a value in the pool, and the pool with the value in it. -/
def intern (pool : Pool) (v : Value) : Nat × Pool :=
  match hplace : pool.places.lookup v.key with
  | some i => (i, pool)
  | none => (pool.values.length, {
      values := pool.values ++ [v]
      places := (v.key, pool.values.length) :: pool.places
      inStep := pool.inStep_push hplace })

end Pool

/-- The load of an operand. -/
def Operand.lower (mode : Mode) (pool : Pool) : Operand → Load × Pool
  | reference r =>
    match mode with
    | .checked => (.slot r, pool)
    | .unchecked => (.slotUnchecked r, pool)
  | literal v => (.const (pool.intern v).1, (pool.intern v).2)
  | reserved r => (.reserved r, pool)

/-- The loads of some operands. -/
def Operand.lowerAll (mode : Mode) (pool : Pool) : List Operand → List Load × Pool
  | [] => ([], pool)
  | o :: rest =>
    let first := o.lower mode pool
    let more := lowerAll mode first.2 rest
    (first.1 :: more.1, more.2)

/-- The place of an optional format in the pool. -/
def Pool.internFormat (pool : Pool) : Option String → Option Nat × Pool
  | none => (none, pool)
  | some format => (some (pool.intern (.text format)).1, (pool.intern (.text format)).2)

/-- The load of an optional operand. -/
def Operand.lowerOption (mode : Mode) (pool : Pool) : Option Operand → Option Load × Pool
  | none => (none, pool)
  | some o => (some (o.lower mode pool).1, (o.lower mode pool).2)

/-- The actions of a definition. -/
def Node.lowerDefine (mode : Mode) (id : SlotId) (type : TypeTag) (value : Option Load) :
    List Action :=
  match mode, value with
  | .checked, none => [.create id type]
  | .checked, some load => [.create id type, .set id load]
  | .unchecked, value => [.write id type value]

/-- The actions of a node. -/
def Node.lower (mode : Mode) (pool : Pool) : Node → List Action × Pool
  | echo _ text operands =>
    let place := pool.internFormat text
    let loads := Operand.lowerAll mode place.2 operands
    ([.echo place.1 loads.1], loads.2)
  | define _ type target initial =>
    let value := Operand.lowerOption mode pool initial
    (lowerDefine mode target.id type value.1, value.2)
  | const _ v => ([], (pool.intern v).2)
  | format _ _ | store _ _ | passthrough _ => ([], pool)

/-- The statements of a tree, with a pool to start from. -/
def Tree.lower (mode : Mode) (pool : Pool) : Tree → List Statement × Pool
  | [] => ([], pool)
  | node :: rest =>
    let first := node.lower mode pool
    let more := lower mode first.2 rest
    (first.1.map (⟨node.line, ·⟩) ++ more.1, more.2)

/-- The program of a tree. -/
def Program.ofTree (tree : Tree) (settings : Settings) : Program where
  settings := settings
  constants := (Tree.lower settings.mode .empty tree).2.values
  statements := (Tree.lower settings.mode .empty tree).1

end ColonScript
