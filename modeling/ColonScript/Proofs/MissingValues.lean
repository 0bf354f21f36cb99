import ColonScript.Proofs.FormatExpansion
import ColonScript.Proofs.ModeAgreement

/-!
# Failures of unchecked programs

An unchecked program reaches its slots without a check, so nothing that happens to the store can
make it fail.  What is left are formats that ask for more values than their `echo` has operands,
and this can be seen in the tree before anything is run: an `echo` prints as many values as it has
operands, whatever the values are.

`Node.LacksValue` says which nodes these are.  A node that lacks a value fails from every state, and
one that lacks none succeeds from every state.  So a run fails exactly at the first node that lacks
a value (`Program.run_unchecked_error_iff`), and neither the program arguments nor the depth of
scopes play a part.
-/

namespace ColonScript

namespace Node

/-! ### Nodes that lack a value -/

/-- An `echo` with more directives in its format than operands to print. -/
def LacksValue : Node → Prop
  | echo _ (some text) operands =>
    ∃ parts, Format.IsSplit text.toList parts ∧ operands.length < Format.arity parts
  | _ => False

/-- Since a format has one division, its directives can be counted in the one that is found from
left to right. -/
lemma lacksValue_echo_iff {token : Token} {format : String} {operands : List Operand} :
    (echo token (some format) operands).LacksValue ↔
      operands.length < Format.arity (Format.split format.toList) := by
  constructor
  · rintro ⟨parts, hsplit, hmore⟩
    rwa [← Format.isSplit_iff.1 hsplit]
  · intro hmore
    exact ⟨_, Format.isSplit_split _, hmore⟩

/-- Only an `echo` with a format can lack a value. -/
lemma LacksValue.exists_echo {node : Node} (h : node.LacksValue) :
    ∃ token format operands, node = .echo token (some format) operands := by
  cases node with
  | echo token text operands =>
    cases text with
    | none => exact h.elim
    | some format => exact ⟨token, format, operands, rfl⟩
  | _ => exact h.elim

instance : DecidablePred LacksValue
  | echo _ (some _) _ => decidable_of_iff' _ lacksValue_echo_iff
  | echo _ none _ | define .. | const .. | format .. | store .. | passthrough _ => .isFalse id

/-! ### One node -/

section Interpret

variable {m : Machine}

/-- Without checks, an `echo` prints one value for each operand. -/
lemma interpret_unchecked_echo (m : Machine) (token : Token) (format : String)
    (operands : List Operand) :
    (echo token (some format) operands).interpret .unchecked m =
      (Template.print m.console format (operands.map (Operand.valueIn m.store))).map
        fun console => { m with console := console } := by
  rw [interpret, Operand.mapM_eval_unchecked]
  rfl

/-- Without a limit and without checks, an `echo` that lacks a value fails from every state, and the
fault names the first value that its operands do not supply. -/
lemma interpret_unchecked_of_lacksValue (hroom : m.console.room = none) {token : Token}
    {format : String} {operands : List Operand}
    (hlacks : (echo token (some format) operands).LacksValue) :
    ∃ console, (echo token (some format) operands).interpret .unchecked m =
      .error (.missingValue (operands.length + 1), console) := by
  obtain ⟨store, written, room⟩ := m
  obtain rfl : room = none := hroom
  have hlength : (operands.map (Operand.valueIn store)).length = operands.length :=
    List.length_map _
  rw [lacksValue_echo_iff, ← hlength] at hlacks
  obtain ⟨front, d, back, hsplit, hd, hfront⟩ := Format.exists_missing hlacks
  rw [interpret_unchecked_echo, Format.print_of_missing hsplit hd hfront, hlength]
  exact ⟨_, rfl⟩

/-- Without a limit and without checks, a node that lacks no value succeeds from every state. -/
lemma interpret_unchecked_of_not_lacksValue (hroom : m.console.room = none) {node : Node}
    (hnot : ¬ node.LacksValue) :
    ∃ next, node.interpret .unchecked m = .ok next ∧ next.console.room = none := by
  cases node with
  | echo token text operands =>
    cases text with
    | some format =>
      obtain ⟨store, written, room⟩ := m
      obtain rfl : room = none := hroom
      rw [lacksValue_echo_iff, Nat.not_lt, ← List.length_map (Operand.valueIn store)] at hnot
      rw [interpret_unchecked_echo, Format.print_of_le hnot]
      exact ⟨_, rfl, rfl⟩
    | none =>
      obtain ⟨console, hprinted, hend⟩ := Console.writeAll_unlimited hroom
        ((operands.map (Operand.valueIn m.store)).map Value.display)
      refine ⟨⟨m.store, console⟩, ?_, hend⟩
      exact interpret_echo_eq_ok_iff.2
        ⟨_, console, Operand.mapM_eval_unchecked m.store operands, hprinted, rfl⟩
  | define token type target initial =>
    have hdefine := m.store.define_unchecked target.id type initial
    exact ⟨_, interpret_define_eq_ok_iff.2 ⟨_, hdefine, rfl⟩, hroom⟩
  | const token v => exact ⟨m, rfl, hroom⟩
  | format token text => exact ⟨m, rfl, hroom⟩
  | store token text => exact ⟨m, rfl, hroom⟩
  | passthrough token => exact ⟨m, rfl, hroom⟩

end Interpret

end Node

/-! ### Whole trees -/

namespace Tree

variable {m : Machine}

/-- Without a limit and without checks, a tree in which no node lacks a value succeeds. -/
lemma interpret_unchecked_of_not_lacksValue (hroom : m.console.room = none) {tree : Tree}
    (hnone : ∀ node ∈ tree, ¬ node.LacksValue) :
    ∃ last, tree.interpret .unchecked m = .ok last ∧ last.console.room = none := by
  induction tree generalizing m with
  | nil => exact ⟨m, rfl, hroom⟩
  | cons node rest ih =>
    obtain ⟨hnode, hrest⟩ := List.forall_mem_cons.1 hnone
    obtain ⟨next, hnext, hlimit⟩ := Node.interpret_unchecked_of_not_lacksValue hroom hnode
    obtain ⟨last, hlast, hend⟩ := ih hlimit hrest
    exact ⟨last, interpret_cons_eq_ok_iff.2 ⟨next, hnext, hlast⟩, hend⟩

/-- Without a limit and without checks, a tree fails at the first node that lacks a value. -/
lemma interpret_unchecked_of_lacksValue (hroom : m.console.room = none) {before after : Tree}
    {token : Token} {format : String} {operands : List Operand}
    (hbefore : ∀ node ∈ before, ¬ node.LacksValue)
    (hlacks : (Node.echo token (some format) operands).LacksValue) :
    ∃ console,
      Tree.interpret .unchecked m (before ++ .echo token (some format) operands :: after) =
        .error (⟨.missingValue (operands.length + 1), some token.line⟩, console) := by
  induction before generalizing m with
  | nil =>
    obtain ⟨console, hfails⟩ := Node.interpret_unchecked_of_lacksValue hroom hlacks
    refine ⟨console, ?_⟩
    rw [List.nil_append, interpret, hfails]
    rfl
  | cons node rest ih =>
    obtain ⟨hnode, hrest⟩ := List.forall_mem_cons.1 hbefore
    obtain ⟨next, hnext, hlimit⟩ := Node.interpret_unchecked_of_not_lacksValue hroom hnode
    obtain ⟨console, hconsole⟩ := ih hlimit hrest
    refine ⟨console, ?_⟩
    rw [List.cons_append, interpret, hnext]
    exact hconsole

/-- A tree with a node that lacks a value has a first one. -/
lemma exists_first_lacksValue {tree : Tree} (h : ∃ node ∈ tree, node.LacksValue) :
    ∃ before token format operands after,
      tree = before ++ .echo token (some format) operands :: after ∧
      (∀ node ∈ before, ¬ node.LacksValue) ∧
      (Node.echo token (some format) operands).LacksValue := by
  obtain ⟨node, hmem, hlacks⟩ := h
  have hfound : (tree.find? (·.LacksValue)).isSome := by
    rw [List.find?_isSome]
    exact ⟨node, hmem, decide_eq_true hlacks⟩
  obtain ⟨first, hfirst⟩ := Option.isSome_iff_exists.1 hfound
  obtain ⟨hlacks, before, after, rfl, hbefore⟩ := List.find?_eq_some_iff_append.1 hfirst
  have hlacks := of_decide_eq_true hlacks
  obtain ⟨token, format, operands, rfl⟩ := hlacks.exists_echo
  refine ⟨before, token, format, operands, after, rfl, fun node hnode => ?_, hlacks⟩
  simpa using hbefore node hnode

end Tree

/-! ### Programs -/

/-- Whether an unchecked program fails is decided by its tree.  It fails exactly if some `echo` has
a format with more directives than operands.  The error is that a value is missing, on the line of
the first such node and with the place of the first value that its operands do not supply; there
is no other error. -/
theorem Program.run_unchecked_error_iff (tree : Tree) (depth : ℕ) (arguments : List String) :
    ((∃ e, (ofTree tree ⟨.unchecked, depth⟩).run arguments = .error e) ↔
      ∃ node ∈ tree, node.LacksValue) ∧
    ∀ e, (ofTree tree ⟨.unchecked, depth⟩).run arguments = .error e ↔
      ∃ before token format operands after,
        tree = before ++ .echo token (some format) operands :: after ∧
        (∀ node ∈ before, ¬ node.LacksValue) ∧
        (Node.echo token (some format) operands).LacksValue ∧
        e = ⟨.missingValue (operands.length + 1), some token.line⟩ := by
  have hsome {e : RunError}
      (hrun : (ofTree tree ⟨.unchecked, depth⟩).run arguments = .error e) :
      ∃ node ∈ tree, node.LacksValue := by
    by_contra hnone
    simp only [not_exists, not_and] at hnone
    obtain ⟨last, hlast, -⟩ :=
      Tree.interpret_unchecked_of_not_lacksValue (m := Machine.initial arguments none) rfl hnone
    obtain ⟨console, hconsole⟩ := run_ofTree_eq_error_iff.1 hrun
    simp [hlast] at hconsole
  have hfirst {before after : Tree} {token : Token} {format : String} {operands : List Operand}
      (hsplit : tree = before ++ .echo token (some format) operands :: after)
      (hbefore : ∀ node ∈ before, ¬ node.LacksValue)
      (hlacks : (Node.echo token (some format) operands).LacksValue) :
      (ofTree tree ⟨.unchecked, depth⟩).run arguments =
        .error ⟨.missingValue (operands.length + 1), some token.line⟩ := by
    rw [run_ofTree_eq_error_iff, hsplit]
    exact Tree.interpret_unchecked_of_lacksValue rfl hbefore hlacks
  refine ⟨⟨fun ⟨e, hrun⟩ => hsome hrun, fun hnode => ?_⟩, fun e => ⟨fun hrun => ?_, ?_⟩⟩
  · obtain ⟨before, token, format, operands, after, hsplit, hbefore, hlacks⟩ :=
      Tree.exists_first_lacksValue hnode
    exact ⟨_, hfirst hsplit hbefore hlacks⟩
  · obtain ⟨before, token, format, operands, after, hsplit, hbefore, hlacks⟩ :=
      Tree.exists_first_lacksValue (hsome hrun)
    have herror := hrun.symm.trans (hfirst hsplit hbefore hlacks)
    exact ⟨before, token, format, operands, after, hsplit, hbefore, hlacks,
      Except.error.inj herror⟩
  · rintro ⟨before, token, format, operands, after, hsplit, hbefore, hlacks, rfl⟩
    exact hfirst hsplit hbefore hlacks

/-- A slot that does not exist and a definition of the argument count do no harm, and two percent
signs are no directive. -/
example :
    (Program.ofSource ":echo:~7:define:fn:~-1\n:echo@\"%s%%%d%\":true" ⟨.unchecked, 10⟩).map
      (·.run []) = .ok (.error ⟨.missingValue 2, some 2⟩) := by
  decide +kernel

end ColonScript
