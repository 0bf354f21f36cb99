import ColonScript.Proofs.ModeAgreement
import ColonScript.Proofs.Output

/-!
# The two modes in lockstep

Where no definition gives a variable its own value, a checked run and an unchecked run are in the
same state after every node, up to the node at which the checked run is stopped by one of its
checks.  A check stops it before the node has printed anything; every other failure happens in
both runs alike (`Tree.lockstep_interpret`).

So the checked run ends in the same state as the unchecked one, or it has printed a first part of
what the unchecked one prints (`Program.ended_lockstep`).
-/

namespace ColonScript

/-! ### Faults of the checks -/

/-- A fault that no missing value of a format has caused. -/
def Fault.IsCheck (fault : Fault) : Prop :=
  ∀ position, fault ≠ .missingValue position

namespace Store

lemma isCheck_of_create {s : Store} {id : SlotId} {type : TypeTag} {fault : Fault}
    (h : s.create id type = .error fault) : fault.IsCheck := by
  unfold create at h
  split at h
  · obtain rfl := Except.error.inj h
    simp [Fault.IsCheck]
  · split_ifs at h
    obtain rfl := Except.error.inj h
    simp [Fault.IsCheck]

lemma isCheck_of_set {s : Store} {id : SlotId} {v : Value} {fault : Fault}
    (h : s.set id v = .error fault) : fault.IsCheck := by
  unfold set at h
  split at h
  · obtain rfl := Except.error.inj h
    simp [Fault.IsCheck]
  · split at h
    · obtain rfl := Except.error.inj h
      simp [Fault.IsCheck]
    · split_ifs at h
      obtain rfl := Except.error.inj h
      simp [Fault.IsCheck]

lemma isCheck_of_get {s : Store} {r : Reference} {fault : Fault} (h : s.get r = .error fault) :
    fault.IsCheck := by
  unfold get at h
  split at h
  · simp at h
  · split at h
    · simp at h
    · obtain rfl := Except.error.inj h
      simp [Fault.IsCheck]

end Store

namespace Operand

lemma isCheck_of_eval {s : Store} {o : Operand} {fault : Fault}
    (h : o.eval .checked s = .error fault) : fault.IsCheck := by
  cases o with
  | reference r =>
    simp only [eval] at h
    cases hget : s.get r with
    | error other =>
      rw [hget] at h
      obtain rfl := Except.error.inj h
      exact Store.isCheck_of_get hget
    | ok slot => simp [hget, Except.map] at h
  | literal v => simp [eval] at h
  | reserved r => simp [eval] at h

lemma isCheck_of_mapM_eval {s : Store} {operands : List Operand} {fault : Fault}
    (h : operands.mapM (eval .checked s) = .error fault) : fault.IsCheck := by
  induction operands with
  | nil => simp [pure, Except.pure] at h
  | cons o rest ih =>
    rw [List.mapM_cons] at h
    rcases bind_eq_error_iff.1 h with hfirst | ⟨v, -, hrest⟩
    · exact isCheck_of_eval hfirst
    · rcases bind_eq_error_iff.1 hrest with hmore | ⟨vs, -, hcons⟩
      · exact ih hmore
      · simp [pure, Except.pure] at hcons

end Operand

/-! ### One node -/

/-- A definition that gives a numbered variable its own value. -/
def Node.DefinesBySelf : Node → Prop
  | define _ _ target (some (.reference r)) =>
    ∃ n, target.id = .index n ∧ r = Reference.own (.index n)
  | _ => False

/-- A checked definition stops by a check. -/
lemma Store.isCheck_of_define {s : Store} {id : SlotId} {type : TypeTag}
    {initial : Option Operand} {fault : Fault}
    (h : s.define .checked id type initial = .error fault) : fault.IsCheck := by
  cases initial with
  | none => exact isCheck_of_create h
  | some o =>
    rcases bind_eq_error_iff.1 h with hcreate | ⟨declared, -, hassign⟩
    · exact isCheck_of_create hcreate
    · rcases bind_eq_error_iff.1 hassign with heval | ⟨v, -, hset⟩
      · exact Operand.isCheck_of_eval heval
      · exact isCheck_of_set hset

/-- The value of an operand does not change by putting a variable that it does not refer to. -/
lemma Operand.valueIn_put {s : Store} {n : UInt64} {slot : Slot} {o : Operand}
    (hother : o ≠ .reference (Reference.own (.index n))) :
    o.valueIn (s.put n slot) = o.valueIn s := by
  cases o with
  | reference r =>
    have hr : r ≠ Reference.own (.index n) := fun hsame => hother (by rw [hsame])
    simp only [valueIn, Store.read_put, if_neg hr]
  | literal v => rfl
  | reserved r => rfl

/-- A checked definition that succeeds leaves the store as the unchecked one does. -/
lemma Store.define_unchecked_of_checked {s next : Store} {id : SlotId} {type : TypeTag}
    {initial : Option Operand}
    (hother : ∀ n, id = .index n → initial ≠ some (.reference (Reference.own (.index n))))
    (h : s.define .checked id type initial = .ok next) :
    s.define .unchecked id type initial = .ok next := by
  obtain ⟨n, rfl, rfl⟩ := eq_put_of_define_checked h
  have hinitial : Operand.initialIn (s.put n ⟨type, .null⟩) initial =
      Operand.initialIn s initial := by
    cases initial with
    | none => rfl
    | some o =>
      have hne : o ≠ .reference (Reference.own (.index n)) :=
        fun hsame => hother n rfl (congrArg some hsame)
      simp only [Operand.initialIn, Option.map_some, Operand.valueIn_put hne]
  rw [define_unchecked, hinitial]
  rfl

/-- From one state both modes carry out a node in the same way, or the checked mode is stopped by
a check before anything is printed. -/
lemma Node.lockstep_interpret {node : Node} (hself : ¬ node.DefinesBySelf) (m : Machine) :
    node.interpret .checked m = node.interpret .unchecked m ∨
      ∃ fault, fault.IsCheck ∧ node.interpret .checked m = .error (fault, m.console) := by
  cases node with
  | echo token text operands =>
    cases hvalues : operands.mapM (Operand.eval .checked m.store) with
    | error fault =>
      exact .inr ⟨fault, Operand.isCheck_of_mapM_eval hvalues, by simp only [interpret, hvalues]⟩
    | ok vs =>
      left
      simp only [interpret, hvalues, Operand.mapM_eval_unchecked,
        Operand.map_valueIn_of_mapM_checked hvalues]
  | define token type target initial =>
    cases hdefine : m.store.define .checked target.id type initial with
    | error fault =>
      exact .inr ⟨fault, Store.isCheck_of_define hdefine,
        by simp only [interpret, hdefine, Machine.update]⟩
    | ok store =>
      have hother : ∀ n, target.id = .index n →
          initial ≠ some (.reference (Reference.own (.index n))) := by
        rintro n hid rfl
        exact hself ⟨n, hid, rfl⟩
      left
      simp only [interpret, hdefine, Store.define_unchecked_of_checked hother hdefine]
  | const token v => exact .inl rfl
  | format token text => exact .inl rfl
  | store token text => exact .inl rfl
  | passthrough token => exact .inl rfl

/-! ### Whole runs -/

/-- From one state both modes carry out a tree in the same way, or the checked mode is stopped by
a check and the unchecked mode goes on from what was printed. -/
lemma Tree.lockstep_interpret {tree : Tree} (hself : ∀ node ∈ tree, ¬ node.DefinesBySelf)
    (m : Machine) :
    tree.interpret .checked m = tree.interpret .unchecked m ∨
      ∃ e console, e.fault.IsCheck ∧ tree.interpret .checked m = .error (e, console) ∧
        console.Extends (Console.reached Machine.console (tree.interpret .unchecked m)) := by
  induction tree generalizing m with
  | nil => exact .inl rfl
  | cons node rest ih =>
    obtain ⟨hnode, hrest⟩ := List.forall_mem_cons.1 hself
    rcases node.lockstep_interpret hnode m with hsame | ⟨fault, hcheck, hstop⟩
    · rw [interpret, interpret, hsame]
      cases node.interpret .unchecked m with
      | error failed => exact .inl rfl
      | ok next => exact ih hrest next
    · refine .inr ⟨⟨fault, some node.line⟩, m.console, hcheck, ?_, ?_⟩
      · rw [interpret, hstop]
        rfl
      · exact extends_interpret .unchecked m (node :: rest)

namespace Program

/-- The state in which a run ends, or its error with the output so far. -/
def ended (p : Program) (arguments : List String) (room : Option ℕ) : Ended :=
  p.steps (p.start arguments room) p.statements

/-- What a program prints is the output that its tree comes with. -/
lemma written_execute_ofTree (tree : Tree) (settings : Settings) (arguments : List String)
    (room : Option ℕ) :
    ((ofTree tree settings).execute arguments room).written =
      (Console.reached Machine.console
        (tree.interpret settings.mode (Machine.initial arguments room))).written := by
  rw [execute, steps_ofTree]
  cases tree.interpret settings.mode (Machine.initial arguments room) <;> rfl

/-- In a tree without a definition that gives a variable its own value, the checked program prints
a first part of what the unchecked one prints, also if it fails.  If it succeeds, then both end
with the same variables and the same output.  If it fails because a format has no value left,
then both fail with the same error on the same line and with the same output. -/
theorem ended_lockstep {tree : Tree} (hself : ∀ node ∈ tree, ¬ node.DefinesBySelf) (depth : ℕ)
    (arguments : List String) (room : Option ℕ) :
    let checked := ofTree tree ⟨.checked, depth⟩
    let unchecked := ofTree tree ⟨.unchecked, depth⟩
    (∃ more, (unchecked.execute arguments room).written =
      (checked.execute arguments room).written ++ more) ∧
    (∀ m, checked.ended arguments room = .ok m → unchecked.ended arguments room = .ok m) ∧
    ∀ position line console,
      checked.ended arguments room = .error (⟨.missingValue position, line⟩, console) →
      unchecked.ended arguments room = .error (⟨.missingValue position, line⟩, console) := by
  intro checked unchecked
  have hchecked := steps_ofTree tree ⟨.checked, depth⟩ arguments room
  have hunchecked := steps_ofTree tree ⟨.unchecked, depth⟩ arguments room
  simp only [checked, unchecked, ended, written_execute_ofTree, hchecked, hunchecked]
  rcases Tree.lockstep_interpret hself (Machine.initial arguments room) with
    hsame | ⟨e, stopped, hcheck, hstop, hextends⟩
  · rw [hsame]
    exact ⟨Console.Extends.refl _, fun _ h => h, fun _ _ _ h => h⟩
  · rw [hstop]
    refine ⟨hextends, fun m h => ?_, fun position line console h => ?_⟩
    · simp [Except.map] at h
    · obtain ⟨rfl, -⟩ := Prod.mk.inj (Except.error.inj h)
      exact absurd rfl (hcheck position)

/-- A variable is copied and then printed through a format that asks for two values: both programs
print the copy and fail on the line of the `echo`. -/
theorem ended_lockstep_missing_value :
    ∃ tree : Tree, (∀ node ∈ tree, ¬ node.DefinesBySelf) ∧
      (ofTree tree ⟨.checked, 10⟩).ended [] none =
        .error (⟨.missingValue 2, some 3⟩, ⟨"5 ", none⟩) ∧
      (ofTree tree ⟨.unchecked, 10⟩).ended [] none =
        .error (⟨.missingValue 2, some 3⟩, ⟨"5 ", none⟩) := by
  let token (k : Keyword) (line : ℕ) : Token := ⟨.command ⟨.keyword k, none⟩, line⟩
  let tree : Tree :=
    [.define (token .define 1) .static (Reference.own (.index 0)) (some (.literal (.static 5))),
     .define (token .define 2) .static (Reference.own (.index 1))
       (some (.reference (Reference.own (.index 0)))),
     .echo (token .echo 3) (some "%d %s") [.reference (Reference.own (.index 1))]]
  have hself : ∀ node ∈ tree, ¬ node.DefinesBySelf := by
    simp [tree, Node.DefinesBySelf, Reference.own]
  have hchecked : (ofTree tree ⟨.checked, 10⟩).ended [] none =
      .error (⟨.missingValue 2, some 3⟩, ⟨"5 ", none⟩) := by decide +kernel
  exact ⟨tree, hself, hchecked, (ended_lockstep hself 10 [] none).2.2 _ _ _ hchecked⟩

end Program

end ColonScript
