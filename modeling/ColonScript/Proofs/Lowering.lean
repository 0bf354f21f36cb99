import ColonScript.Program.Lowering
import ColonScript.Proofs.Interpreter

/-!
# Programs do what their trees say

Running the program of a tree has the outcome of interpreting the tree, whatever the settings,
the program arguments and the room of the output (`execute_ofTree`).

A program refers to its literals and formats by their places in a pool that grows while the tree
is lowered.  The places that the pool knows by their keys are those where its values are
(`Pool.lookup_key_eq_some_iff`).  The pool only grows at its end, so a place keeps its meaning: the
statements of a node are correct in every program whose constants continue the pool that the node
leaves (`foldlM_step_lower`), and the constants of the whole program continue the pools of all
nodes.
-/

namespace ColonScript

/-! ### Places in the pool -/

/-- A value is determined by its key. -/
lemma Value.key_injective : Function.Injective key := by
  intro v w h
  match v, w, h with
  | static _, static _, h => exact congrArg static (Pool.Key.static.inj h)
  | dynamic ⟨_⟩, dynamic ⟨_⟩, h =>
    exact congrArg (fun bits => dynamic ⟨bits⟩) (Pool.Key.dynamic.inj h)
  | text _, text _, h => exact congrArg text (Pool.Key.text.inj h)
  | null, null, _ => rfl

namespace Pool

/-- The place that is known for a value is where the pool has it. -/
lemma lookup_key_eq_some_iff {pool : Pool} {v : Value} {i : ℕ} :
    pool.places.lookup v.key = some i ↔ pool.values[i]? = some v := by
  rw [pool.inStep, Option.map_eq_some_iff]
  constructor
  · rintro ⟨w, hw, hkey⟩
    rwa [Value.key_injective hkey] at hw
  · intro hv
    exact ⟨v, hv, rfl⟩

/-- A pool is continued by the pool with one more value. -/
lemma isPrefix_intern (pool : Pool) (v : Value) : pool.values <+: (pool.intern v).2.values := by
  unfold intern
  split
  · exact List.prefix_rfl
  · exact List.prefix_append pool.values [v]

/-- The place that a value gets holds the value. -/
lemma getElem?_intern (pool : Pool) (v : Value) :
    (pool.intern v).2.values[(pool.intern v).1]? = some v := by
  unfold intern
  split
  · next i hplace => exact lookup_key_eq_some_iff.1 hplace
  · simp

/-- A pool is continued by the pool with a format. -/
lemma isPrefix_internFormat (pool : Pool) (format : Option String) :
    pool.values <+: (pool.internFormat format).2.values := by
  cases format with
  | none => exact List.prefix_rfl
  | some text => exact pool.isPrefix_intern (.text text)

end Pool

/-- A pool is continued by the pool with the literal of an operand. -/
lemma Operand.isPrefix_lower (mode : Mode) (pool : Pool) (o : Operand) :
    pool.values <+: (o.lower mode pool).2.values := by
  cases o with
  | reference r => cases mode <;> exact List.prefix_rfl
  | literal v => exact pool.isPrefix_intern v
  | reserved r => exact List.prefix_rfl

/-- A pool is continued by the pool with the literals of some operands. -/
lemma Operand.isPrefix_lowerAll (mode : Mode) (pool : Pool) (operands : List Operand) :
    pool.values <+: (Operand.lowerAll mode pool operands).2.values := by
  induction operands generalizing pool with
  | nil => exact List.prefix_rfl
  | cons o rest ih => exact (o.isPrefix_lower mode pool).trans (ih _)

/-- A pool is continued by the pool with the constants of a node. -/
lemma Node.isPrefix_lower (mode : Mode) (pool : Pool) (node : Node) :
    pool.values <+: (node.lower mode pool).2.values := by
  cases node with
  | echo token text operands =>
    exact (pool.isPrefix_internFormat text).trans (Operand.isPrefix_lowerAll mode _ operands)
  | define token type target initial =>
    cases initial with
    | none => exact List.prefix_rfl
    | some o => exact o.isPrefix_lower mode pool
  | const token v => exact pool.isPrefix_intern v
  | format token text => exact List.prefix_rfl
  | store token text => exact List.prefix_rfl
  | passthrough token => exact List.prefix_rfl

/-- A pool is continued by the pool with the constants of a tree. -/
lemma Tree.isPrefix_lower (mode : Mode) (pool : Pool) (tree : Tree) :
    pool.values <+: (Tree.lower mode pool tree).2.values := by
  induction tree generalizing pool with
  | nil => exact List.prefix_rfl
  | cons node rest ih => exact (node.isPrefix_lower mode pool).trans (ih _)

/-! ### Loads -/

namespace Program

variable (p : Program) (mode : Mode) {pool : Pool}

/-- The place of an interned value denotes it in every program that continues the pool. -/
lemma constant_intern (v : Value) (hp : (pool.intern v).2.values <+: p.constants) :
    p.constant (pool.intern v).1 = v := by
  obtain ⟨more, hmore⟩ := hp
  have hplace := pool.getElem?_intern v
  obtain ⟨hlt, -⟩ := List.getElem?_eq_some_iff.1 hplace
  rw [constant, ← hmore, List.getD_eq_getElem?_getD, List.getElem?_append_left hlt, hplace]
  rfl

/-- The load of an operand has the value of the operand. -/
lemma load_lower (store : Store) (o : Operand)
    (hp : (o.lower mode pool).2.values <+: p.constants) :
    p.load store (o.lower mode pool).1 = o.eval mode store := by
  cases o with
  | reference r => cases mode <;> rfl
  | literal v => exact congrArg Except.ok (p.constant_intern v hp)
  | reserved r => rfl

/-- The loads of some operands have the values of the operands, or the first fault. -/
lemma loadAll_lowerAll (store : Store) (operands : List Operand)
    (hp : (Operand.lowerAll mode pool operands).2.values <+: p.constants) :
    p.loadAll store (Operand.lowerAll mode pool operands).1 =
      operands.mapM (Operand.eval mode store) := by
  induction operands generalizing pool with
  | nil => rfl
  | cons o rest ih =>
    have hfirst := p.load_lower mode store o
      ((Operand.isPrefix_lowerAll mode (o.lower mode pool).2 rest).trans hp)
    rw [Operand.lowerAll, loadAll, hfirst, List.mapM_cons]
    cases o.eval mode store with
    | error fault => rfl
    | ok v =>
      rw [ih hp]
      cases rest.mapM (Operand.eval mode store) <;> rfl

/-- Printing through the place of a format prints through the format. -/
lemma print_internFormat (console : Console) (format : Option String) (values : List Value)
    (hp : (pool.internFormat format).2.values <+: p.constants) :
    p.print console (pool.internFormat format).1 values = console.echo format values := by
  cases format with
  | none => rfl
  | some text =>
    have hplace := p.constant_intern (.text text) hp
    simp only [Pool.internFormat, print, hplace, Value.display, Console.echo]

/-! ### Statements -/

/-- One action after another: a single one is a step. -/
lemma foldlM_step_single (m : Machine) (a : Action) : [a].foldlM p.step m = p.step m a := by
  rw [List.foldlM_cons]
  cases p.step m a <;> rfl

/-- The actions of a definition do together what the definition does. -/
lemma foldlM_step_lowerDefine (m : Machine) (id : SlotId) (type : TypeTag)
    (initial : Option Operand)
    (hp : (Operand.lowerOption mode pool initial).2.values <+: p.constants) :
    (Node.lowerDefine mode id type (Operand.lowerOption mode pool initial).1).foldlM p.step m =
      Machine.update m.console (m.store.define mode id type initial) := by
  cases initial with
  | none => cases mode <;> exact p.foldlM_step_single m _
  | some o =>
    have hload (store : Store) := p.load_lower mode store o hp
    cases mode with
    | checked =>
      simp only [Operand.lowerOption, Node.lowerDefine, List.foldlM_cons, List.foldlM_nil, step,
        Store.define]
      cases m.store.create id type with
      | error fault => rfl
      | ok declared =>
        simp only [Machine.update, bind, Except.bind, hload]
        cases o.eval .checked declared with
        | error fault => rfl
        | ok v =>
          dsimp only
          cases declared.set id v <;> rfl
    | unchecked =>
      simp only [Operand.lowerOption, Node.lowerDefine, foldlM_step_single, step, hload,
        Store.define]
      cases o.eval .unchecked m.store <;> rfl

/-- The actions of a node do together what the node does. -/
lemma foldlM_step_lower (m : Machine) (node : Node)
    (hp : (node.lower mode pool).2.values <+: p.constants) :
    (node.lower mode pool).1.foldlM p.step m = node.interpret mode m := by
  cases node with
  | echo token text operands =>
    have hloads := p.loadAll_lowerAll mode m.store operands hp
    have hformat : (pool.internFormat text).2.values <+: p.constants :=
      (Operand.isPrefix_lowerAll mode _ operands).trans hp
    simp only [Node.lower, foldlM_step_single, Node.interpret]
    cases hvalues : operands.mapM (Operand.eval mode m.store) with
    | error fault => simp only [step, hloads, hvalues]
    | ok vs => simp only [step, hloads, hvalues, p.print_internFormat _ text _ hformat]
  | define token type target initial => exact p.foldlM_step_lowerDefine mode m _ type initial hp
  | const token v => rfl
  | format token text => rfl
  | store token text => rfl
  | passthrough token => rfl

/-- A load is carried out before those after it. -/
lemma loadAll_cons (store : Store) (l : Load) (rest : List Load) :
    p.loadAll store (l :: rest) =
      (p.load store l).bind fun v => (p.loadAll store rest).map (v :: ·) := by
  rw [loadAll]
  cases p.load store l <;> rfl

/-- An assignment changes the store by the value of its load. -/
lemma step_set (m : Machine) (id : SlotId) (l : Load) :
    p.step m (.set id l) =
      Machine.update m.console ((p.load m.store l).bind fun v => m.store.set id v) := by
  rw [step]
  cases p.load m.store l <;> rfl

/-- An unchecked write changes the store by the value of its load. -/
lemma step_write (m : Machine) (id : SlotId) (type : TypeTag) (l : Load) :
    p.step m (.write id type (some l)) =
      Machine.update m.console ((p.load m.store l).map fun v => m.store.write id type v) := by
  rw [step]
  cases p.load m.store l <;> rfl

/-- An `echo` prints the values of all its loads. -/
lemma step_echo (m : Machine) (format : Option ℕ) (loads : List Load) :
    p.step m (.echo format loads) =
      ((p.loadAll m.store loads).mapError fun fault => (fault, m.console)).bind fun vs =>
        (p.print m.console format vs).map fun console => { m with console := console } := by
  rw [step]
  cases p.loadAll m.store loads <;> rfl

/-- A statement is carried out before those after it. -/
lemma steps_cons (m : Machine) (s : Statement) (rest : List Statement) :
    p.steps m (s :: rest) =
      (p.step m s.action).mapError (Failed.onLine s.line) >>= fun next => p.steps next rest := by
  rw [steps]
  cases p.step m s.action <;> rfl

/-- Statements are carried out one part after the other. -/
lemma steps_append (m : Machine) (first second : List Statement) :
    p.steps m (first ++ second) = p.steps m first >>= fun next => p.steps next second := by
  induction first generalizing m with
  | nil => rfl
  | cons s rest ih =>
    rw [List.cons_append, steps_cons, steps_cons, bind_assoc]
    simp only [ih]

/-- Statements of one line fail on that line. -/
lemma steps_map_line (line : ℕ) (m : Machine) (actions : List Action) :
    p.steps m (actions.map (⟨line, ·⟩)) =
      (actions.foldlM p.step m).mapError (Failed.onLine line) := by
  induction actions generalizing m with
  | nil => rfl
  | cons a rest ih =>
    rw [List.map_cons, steps_cons, List.foldlM_cons]
    cases p.step m a with
    | error failed => rfl
    | ok next => exact ih next

/-- The statements of a tree do what the tree does, in every program whose constants continue
the pool that the tree leaves. -/
lemma steps_lower (m : Machine) (tree : Tree)
    (hp : (Tree.lower mode pool tree).2.values <+: p.constants) :
    p.steps m (Tree.lower mode pool tree).1 = tree.interpret mode m := by
  induction tree generalizing pool m with
  | nil => rfl
  | cons node rest ih =>
    have hnode : (node.lower mode pool).2.values <+: p.constants :=
      (Tree.isPrefix_lower mode _ rest).trans hp
    rw [Tree.lower, steps_append, steps_map_line, p.foldlM_step_lower mode m node hnode,
      Tree.interpret]
    simp only [ih _ hp]

/-- The program of a tree ends as the tree does. -/
lemma steps_ofTree (tree : Tree) (settings : Settings) (arguments : List String)
    (room : Option ℕ) :
    (ofTree tree settings).steps ((ofTree tree settings).start arguments room)
        (ofTree tree settings).statements =
      (tree.interpret settings.mode (Machine.initial arguments room)).map
        (Machine.withDepth settings.maxDepth) := by
  rw [← Tree.interpret_withDepth]
  exact (ofTree tree settings).steps_lower settings.mode _ tree List.prefix_rfl

/-- The program of a tree has the outcome of the tree: it prints the same and fails with the same
error on the same line or not at all, in both modes, at every depth of scopes, with all program
arguments and on every output. -/
theorem execute_ofTree (tree : Tree) (settings : Settings) (arguments : List String)
    (room : Option ℕ) :
    (ofTree tree settings).execute arguments room =
      tree.outcome settings.mode arguments room := by
  rw [execute, steps_ofTree, Tree.outcome]
  cases tree.interpret settings.mode (Machine.initial arguments room) <;> rfl

/-- The program of a tree prints a text without failing exactly if the tree does. -/
lemma run_ofTree_eq_ok_iff {tree : Tree} {settings : Settings} {arguments : List String}
    {printed : String} :
    (ofTree tree settings).run arguments = .ok printed ↔
      ∃ m, tree.interpret settings.mode (Machine.initial arguments none) = .ok m ∧
        m.console.written = printed := by
  rw [run, execute, steps_ofTree]
  cases tree.interpret settings.mode (Machine.initial arguments none) with
  | error failed => simp [Except.map, Outcome.ofEnded]
  | ok m => simp [Except.map, Outcome.ofEnded, Machine.withDepth]

/-- The program of a tree fails with an error exactly if the tree does. -/
lemma run_ofTree_eq_error_iff {tree : Tree} {settings : Settings} {arguments : List String}
    {e : RunError} :
    (ofTree tree settings).run arguments = .error e ↔
      ∃ console,
        tree.interpret settings.mode (Machine.initial arguments none) = .error (e, console) := by
  rw [run, execute, steps_ofTree]
  cases tree.interpret settings.mode (Machine.initial arguments none) with
  | error failed =>
    obtain ⟨found, console⟩ := failed
    simp [Except.map, Outcome.ofEnded]
  | ok m => simp [Except.map, Outcome.ofEnded]

end Program

end ColonScript
