import ColonScript.Proofs.ConstantPool
import ColonScript.Proofs.Lockstep

/-!
# Reading a definition back

A definition with a literal is followed by an `echo` of the reference that it defines.  What is
printed depends on how the reference is written (`Program.afterNodes_define_echo`).

* A definition always puts its variable into the innermost scope.  A plain reference looks there,
  so the literal is printed.
* A reference with the mark for the outer scope looks one scope further out.  Programs open no
  scope (`Tree.atTop_interpret`), so this is where the program arguments are, and an argument is
  printed, whatever was defined.  `Program.ofSource_parent_target` is a source for which the two
  differ.
-/

namespace ColonScript

/-! ### Programs open no scope -/

/-- A store in its outermost scope, with the given program arguments. -/
structure Store.AtTop (arguments : List String) (s : Store) : Prop where
  outer_eq : s.outer = []
  arguments_eq : s.arguments = arguments

section AtTop

variable {arguments : List String}

lemma Store.AtTop.put {s : Store} (h : s.AtTop arguments) (n : UInt64) (slot : Slot) :
    (s.put n slot).AtTop arguments :=
  ⟨h.outer_eq, h.arguments_eq⟩

/-- From the outermost scope, the mark for the outer scope leads to the program arguments. -/
lemma Store.AtTop.get_parent {s : Store} (h : s.AtTop arguments) {r : Reference} {n : UInt64}
    {slot : Slot} (hid : r.id = .index n) (hparent : r.parent = true) (hget : s.get r = .ok slot) :
    arguments[n.toNat]? = some slot.value.display := by
  have hslot : s.slot? r n = s.argument? n := by simp only [slot?, hparent, h.outer_eq]
  simp only [get, hid, hslot, argument?, h.arguments_eq] at hget
  cases htext : arguments[n.toNat]? with
  | none => simp [htext] at hget
  | some text =>
    rw [htext] at hget
    obtain rfl := Except.ok.inj hget
    rfl

/-- A node that succeeds opens no scope. -/
lemma Node.atTop_interpret {m next : Machine} (h : m.store.AtTop arguments) {node : Node}
    (hok : node.interpret .checked m = .ok next) : next.store.AtTop arguments := by
  cases node with
  | echo token text operands =>
    obtain ⟨vs, console, -, -, rfl⟩ := interpret_echo_eq_ok_iff.1 hok
    exact h
  | define token type target initial =>
    obtain ⟨store, hdefine, rfl⟩ := interpret_define_eq_ok_iff.1 hok
    obtain ⟨n, -, rfl⟩ := Store.eq_put_of_define_checked hdefine
    exact h.put n _
  | _ => rwa [← Except.ok.inj hok]

/-- A tree that succeeds opens no scope. -/
lemma Tree.atTop_interpret {m last : Machine} (h : m.store.AtTop arguments) {tree : Tree}
    (hok : tree.interpret .checked m = .ok last) : last.store.AtTop arguments := by
  induction tree generalizing m with
  | nil => rwa [← Except.ok.inj hok]
  | cons node rest ih =>
    obtain ⟨next, hnext, hlast⟩ := interpret_cons_eq_ok_iff.1 hok
    exact ih (Node.atTop_interpret h hnext) hlast

end AtTop

/-! ### What an `echo` of one reference prints -/

/-- A text that can be written is written as a whole. -/
lemma Console.written_of_write {c d : Console} {text : String} (h : c.write text = .ok d) :
    d.written = c.written ++ text := by
  unfold write at h
  split at h
  · rw [← Except.ok.inj h]
  · split_ifs at h
    rw [← Except.ok.inj h]

/-- An `echo` of one reference that succeeds prints the value of its slot. -/
lemma Node.written_of_echo_reference {m next : Machine} {token : Token} {r : Reference}
    (h : (Node.echo token none [.reference r]).interpret .checked m = .ok next) :
    ∃ slot, m.store.get r = .ok slot ∧
      next.console.written = m.console.written ++ slot.value.display := by
  obtain ⟨vs, console, hvalues, hecho, rfl⟩ := interpret_echo_eq_ok_iff.1 h
  have hone : [Operand.reference r].mapM (Operand.eval .checked m.store) =
      (m.store.get r).map fun slot => [slot.value] := by
    rw [List.mapM_cons, Operand.eval]
    cases m.store.get r <;> rfl
  rw [hone] at hvalues
  obtain ⟨slot, hslot, rfl⟩ := map_eq_ok_iff.1 hvalues
  rw [Console.echo, List.map_singleton, Console.writeAll_cons] at hecho
  obtain ⟨after, hwrite, hrest⟩ := bind_eq_ok_iff.1 hecho
  obtain rfl : after = console := Except.ok.inj hrest
  exact ⟨slot, hslot, Console.written_of_write hwrite⟩

/-- An `echo` of the variable that a definition with a literal has just put prints the literal; if
the reference has the mark for the outer scope, then it prints a program argument. -/
lemma Node.written_of_define_echo {arguments : List String} {m defined echoed : Machine}
    (htop : m.store.AtTop arguments) {d e : Token} {type : TypeTag} {target : Reference}
    {n : UInt64} {v : Value} (hvar : target.sigil = .var) (hid : target.id = .index n)
    (hdefined : (Node.define d type target (some (.literal v))).interpret .checked m = .ok defined)
    (hechoed : (Node.echo e none [.reference target]).interpret .checked defined = .ok echoed) :
    ∃ printed, echoed.console.written = defined.console.written ++ printed ∧
      (target.parent = false → printed = v.display) ∧
      (target.parent = true → arguments[n.toNat]? = some printed) := by
  obtain ⟨store, hdefine, rfl⟩ := interpret_define_eq_ok_iff.1 hdefined
  obtain ⟨k, hk, rfl⟩ := Store.eq_put_of_define_checked hdefine
  obtain rfl : k = n := SlotId.index.inj (hk.symm.trans hid)
  obtain ⟨slot, hget, hwritten⟩ := written_of_echo_reference hechoed
  refine ⟨slot.value.display, hwritten, fun hplain => ?_, fun hparent => ?_⟩
  · have hown : target = Reference.own (.index k) := by
      rw [Reference.own, ← hvar, ← hid, ← hplain]
    rw [hown, Store.get_put_own] at hget
    rw [← Except.ok.inj hget]
    rfl
  · exact (htop.put k _).get_parent hid hparent hget

/-! ### Runs of a program up to a node -/

namespace Program

/-- The state of a run of the program of a tree once it is past the first `count` nodes, or the
error that ended it before. -/
def afterNodes (tree : Tree) (settings : Settings) (arguments : List String) (room : Option ℕ)
    (count : ℕ) : Ended :=
  (ofTree tree settings).steps ((ofTree tree settings).start arguments room)
    ((ofTree tree settings).statements.take
      (Tree.lower settings.mode .empty (tree.take count)).1.length)

/-- The statements of the first nodes of a tree do what these nodes do. -/
lemma afterNodes_eq (tree : Tree) (settings : Settings) (arguments : List String)
    (room : Option ℕ) (count : ℕ) :
    afterNodes tree settings arguments room count =
      (Tree.interpret settings.mode (Machine.initial arguments room) (tree.take count)).map
        (Machine.withDepth settings.maxDepth) := by
  have hsplit := Tree.lower_append settings.mode .empty (tree.take count) (tree.drop count)
  rw [List.take_append_drop] at hsplit
  have hstatements : (ofTree tree settings).statements.take
      (Tree.lower settings.mode .empty (tree.take count)).1.length =
        (Tree.lower settings.mode .empty (tree.take count)).1 := by
    rw [ofTree, hsplit, List.take_left]
  have hconstants : (Tree.lower settings.mode .empty (tree.take count)).2.values <+:
      (ofTree tree settings).constants := by
    rw [ofTree, hsplit]
    exact Tree.isPrefix_lower settings.mode _ (tree.drop count)
  rw [afterNodes, hstatements, ← Tree.interpret_withDepth]
  exact (ofTree tree settings).steps_lower settings.mode _ _ hconstants

/-- Reading a definition back.  Suppose that a tree has a definition of a numbered variable with a
literal and right after it an `echo` of the same reference, and that the checked run of its program
gets past both.  If the reference is plain, then the `echo` prints the literal.  If it has the mark
for the outer scope, then the `echo` prints the program argument of that number. -/
theorem afterNodes_define_echo {tree before after : Tree} {d e : Token} {type : TypeTag}
    {target : Reference} {n : UInt64} {v : Value}
    (htree : tree = before ++ .define d type target (some (.literal v)) ::
      .echo e none [.reference target] :: after)
    (hvar : target.sigil = .var) (hid : target.id = .index n) {depth : ℕ}
    {arguments : List String} {room : Option ℕ} {echoed : Machine}
    (hpast : afterNodes tree ⟨.checked, depth⟩ arguments room (before.length + 2) = .ok echoed) :
    ∃ defined printed,
      afterNodes tree ⟨.checked, depth⟩ arguments room (before.length + 1) = .ok defined ∧
      echoed.console.written = defined.console.written ++ printed ∧
      (target.parent = false → printed = v.display) ∧
      (target.parent = true → arguments[n.toNat]? = some printed) := by
  have hone : tree.take (before.length + 1) =
      before ++ [.define d type target (some (.literal v))] := by
    rw [htree, List.take_length_add_append]
    rfl
  have htwo : tree.take (before.length + 2) =
      before ++ [.define d type target (some (.literal v)), .echo e none [.reference target]] := by
    rw [htree, List.take_length_add_append]
    rfl
  rw [afterNodes_eq, htwo] at hpast
  obtain ⟨last, hlast, rfl⟩ := map_eq_ok_iff.1 hpast
  obtain ⟨m, hm, hboth⟩ := Tree.interpret_append_eq_ok_iff.1 hlast
  obtain ⟨defined, hdefined, hrest⟩ := Tree.interpret_cons_eq_ok_iff.1 hboth
  obtain ⟨same, hechoed, hsame⟩ := Tree.interpret_cons_eq_ok_iff.1 hrest
  obtain rfl : same = last := Except.ok.inj hsame
  have htop : m.store.AtTop arguments := Tree.atTop_interpret ⟨rfl, rfl⟩ hm
  obtain ⟨printed, hwritten, hprinted⟩ :=
    Node.written_of_define_echo htop hvar hid hdefined hechoed
  refine ⟨defined.withDepth depth, printed, ?_, hwritten, hprinted⟩
  have hreached : Tree.interpret .checked (Machine.initial arguments room)
      (before ++ [.define d type target (some (.literal v))]) = .ok defined :=
    Tree.interpret_append_eq_ok_iff.2
      ⟨m, hm, Tree.interpret_cons_eq_ok_iff.2 ⟨defined, hdefined, rfl⟩⟩
  rw [afterNodes_eq, hone, hreached]
  rfl

/-- A number that is defined after a copy of a program argument is printed by the `echo` of its
variable. -/
theorem afterNodes_define_echo_number :
    ∃ tree defined echoed,
      Tree.ofSource ":define:text:~0:store:^~0\n:define:dynamic:~1:store:const@2.50\n:echo:~1" =
        .ok tree ∧
      afterNodes tree ⟨.checked, 10⟩ ["a"] none 2 = .ok defined ∧
      afterNodes tree ⟨.checked, 10⟩ ["a"] none 3 = .ok echoed ∧
      echoed.console.written = defined.console.written ++ "2.5" := by
  let token (k : Keyword) (line : ℕ) : Token := ⟨.command ⟨.keyword k, none⟩, line⟩
  let number : Value := .dynamic ((Binary64.read? "2.50".toList).getD .zero)
  let before : Tree := [.define (token .define 1) .text (Reference.own (.index 0))
    (some (.reference ⟨.var, .index 0, true⟩))]
  let tree : Tree := before ++
    [.define (token .define 2) .dynamic (Reference.own (.index 1)) (some (.literal number)),
     .echo (token .echo 3) none [.reference (Reference.own (.index 1))]]
  have hsource : Tree.ofSource
      ":define:text:~0:store:^~0\n:define:dynamic:~1:store:const@2.50\n:echo:~1" = .ok tree := by
    decide +kernel
  have hrun : (afterNodes tree ⟨.checked, 10⟩ ["a"] none 3).map (·.console.written) =
      .ok "2.5" := by decide +kernel
  obtain ⟨echoed, hechoed, -⟩ := map_eq_ok_iff.1 hrun
  have htree : tree = before ++ _ :: _ :: [] := rfl
  obtain ⟨defined, printed, hdefined, hwritten, hplain, -⟩ :=
    afterNodes_define_echo htree rfl rfl hechoed
  have hdisplay : number.display = "2.5" := by decide +kernel
  refine ⟨tree, defined, echoed, hsource, hdefined, hechoed, ?_⟩
  rw [hwritten, hplain rfl, hdisplay]

/-- A definition of a reference with the mark for the outer scope is not read back by an `echo` of
the same reference: the number 5 is defined, and a program argument is printed. -/
theorem ofSource_parent_target :
    ∃ tree d e defined echoed,
      Tree.ofSource ":define:static:^~0:store:const@5\n:echo:^~0" = .ok tree ∧
      tree = [.define d .static ⟨.var, .index 0, true⟩ (some (.literal (.static 5))),
        .echo e none [.reference ⟨.var, .index 0, true⟩]] ∧
      afterNodes tree ⟨.checked, 10⟩ ["x"] none 1 = .ok defined ∧
      afterNodes tree ⟨.checked, 10⟩ ["x"] none 2 = .ok echoed ∧
      defined.console.written = "" ∧ echoed.console.written = "x" ∧
      (Value.static 5).display = "5" := by
  let token (k : Keyword) (line : ℕ) : Token := ⟨.command ⟨.keyword k, none⟩, line⟩
  let tree : Tree :=
    [.define (token .define 1) .static ⟨.var, .index 0, true⟩ (some (.literal (.static 5))),
     .echo (token .echo 2) none [.reference ⟨.var, .index 0, true⟩]]
  have hsource : Tree.ofSource ":define:static:^~0:store:const@5\n:echo:^~0" = .ok tree := by
    decide +kernel
  have hdefined : (afterNodes tree ⟨.checked, 10⟩ ["x"] none 1).map (·.console.written) =
      .ok "" := by decide +kernel
  have hechoed : (afterNodes tree ⟨.checked, 10⟩ ["x"] none 2).map (·.console.written) =
      .ok "x" := by decide +kernel
  obtain ⟨defined, hdefined, hbefore⟩ := map_eq_ok_iff.1 hdefined
  obtain ⟨echoed, hechoed, hafter⟩ := map_eq_ok_iff.1 hechoed
  exact ⟨tree, _, _, defined, echoed, hsource, rfl, hdefined, hechoed, hbefore, hafter,
    by decide +kernel⟩

end Program

end ColonScript
