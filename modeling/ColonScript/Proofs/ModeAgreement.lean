import Mathlib.Data.Int.Notation
import Mathlib.Data.List.Forall2
import ColonScript.Program.Source
import ColonScript.Proofs.Lowering

/-!
# Agreement of the two modes

If the checked program of a source runs without an error, then so does the unchecked one, and
with one exception they print the same (`Program.ofSource_run_unchecked`).

The exception is a definition that gives a variable its own old value, such as
`:define:static:~0:store:~0` where `~0` is already defined.  A checked program declares the
variable first, which makes it null, and then copies this null; an unchecked program copies the
old value.  `Tree.carriesOver` finds these definitions.  Without one, the stores of the two runs
stay alike at every node; after the first one, an `echo` of the variable tells them apart.
-/

namespace ColonScript

/-! ### Values that are written alike -/

/-- Two values that every directive writes alike. -/
def Value.Alike (v w : Value) : Prop :=
  ∀ d : Directive, d.show v = d.show w

namespace Value

lemma Alike.refl (v : Value) : v.Alike v := fun _ => rfl

lemma Alike.trans {u v w : Value} (huv : u.Alike v) (hvw : v.Alike w) : u.Alike w :=
  fun d => (huv d).trans (hvw d)

lemma Alike.display {v w : Value} (h : v.Alike w) : v.display = w.display := h .text

/-- The text of an integer is not empty. -/
lemma toString_ne_empty (n : ℤ) : toString n ≠ "" := by
  rw [Int.toString_eq_repr, Int.repr_eq_if]
  split_ifs
  · exact Nat.repr_ne_empty
  · simp

/-- The text of a number is not empty. -/
lemma plain_render_ne_empty (x : Binary64) : Decimal.Layout.plain.render x ≠ "" := by
  have hmagnitude (number : Decimal.Scientific) :
      Decimal.Layout.plain.magnitude number ≠ "" := by
    simp only [Decimal.Layout.magnitude, Decimal.Layout.plain, Decimal.Layout.positional]
    split_ifs <;> simp_all
  unfold Decimal.Layout.render
  cases x.size with
  | nan => simp
  | infinite => simp
  | finite mantissa exponent => simp [hmagnitude]

/-- Only null and the empty text are written as nothing, and all directives write them alike. -/
lemma alike_null {v : Value} (h : v.display = "") : Alike .null v := by
  cases v with
  | static n => exact absurd h (toString_ne_empty n.toInt)
  | dynamic x => exact absurd h (plain_render_ne_empty x)
  | text s =>
    obtain rfl : s = "" := h
    intro d
    cases d <;> rfl
  | null => exact Alike.refl _

end Value

/-- A template prints values that are written alike in the same way. -/
lemma Template.printFrom_congr {vs ws : List Value} (h : List.Forall₂ Value.Alike vs ws)
    (taken : ℕ) (c : Console) (t : Template) :
    printFrom taken c t vs = printFrom taken c t ws := by
  induction t generalizing taken c vs ws with
  | nil => rfl
  | cons segment rest ih =>
    cases segment with
    | literal text =>
      rw [printFrom, printFrom]
      cases c.write text with
      | error failed => rfl
      | ok next => exact ih h taken next
    | value d =>
      cases h with
      | nil => rfl
      | cons hfirst hmore =>
        rw [printFrom, printFrom, hfirst d]
        cases c.write _ with
        | error failed => rfl
        | ok next => exact ih hmore (taken + 1) next

/-- Values that are written alike are printed alike. -/
lemma Console.echo_congr {vs ws : List Value} (h : List.Forall₂ Value.Alike vs ws)
    (c : Console) (format : Option String) : c.echo format vs = c.echo format ws := by
  cases format with
  | some text => exact Template.printFrom_congr h 0 c _
  | none =>
    have hsame : vs.map Value.display = ws.map Value.display := by
      induction h with
      | nil => rfl
      | cons hfirst hmore ih => rw [List.map_cons, List.map_cons, hfirst.display, ih]
    rw [echo, echo, hsame]

/-! ### What a definition leaves in the store -/

/-- The reference to a variable of the innermost scope. -/
def Reference.own (id : SlotId) : Reference := ⟨.var, id, false⟩

/-- Of two writes of one slot the second counts. -/
lemma Table.insert_insert (t : Table) (n : UInt64) (first second : Slot) :
    (t.insert n first).insert n second = t.insert n second := by
  obtain ⟨entries⟩ := t
  simp only [insert, Table.mk.injEq]
  induction entries with
  | nil => simp [insertEntry]
  | cons entry rest ih =>
    obtain ⟨m, slot⟩ := entry
    by_cases hsame : n = m
    · simp [insertEntry, hsame]
    · simp [insertEntry, hsame, ih]

namespace Store

/-- A reference to a numbered slot has the value of the slot, or null. -/
lemma read_index (s : Store) {r : Reference} {n : UInt64} (hid : r.id = .index n) :
    s.read r = ((s.slot? r n).map Slot.value).getD .null := by
  simp only [read, get, hid]
  cases s.slot? r n <;> rfl

/-- Putting a variable changes the slot of its own reference only. -/
lemma slot?_put (s : Store) (n m : UInt64) (slot : Slot) (sigil : Sigil) (parent : Bool) :
    (s.put n slot).slot? ⟨sigil, .index m, parent⟩ m =
      if sigil = .var ∧ parent = false ∧ m = n then some slot
      else s.slot? ⟨sigil, .index m, parent⟩ m := by
  cases parent with
  | true => cases houter : s.outer <;> simp [slot?, put, argument?, houter]
  | false => cases sigil <;> simp [slot?, put, Scope.table, Table.get?_insert]

/-- After a variable is put, its reference has the new value and every other its old one. -/
lemma read_put (s : Store) (n : UInt64) (slot : Slot) (r : Reference) :
    (s.put n slot).read r = if r = Reference.own (.index n) then slot.value else s.read r := by
  obtain ⟨sigil, id, parent⟩ := r
  cases id with
  | argCount => simp [read, get, Reference.own, put, argumentCount]
  | index m =>
    have hown : (⟨sigil, .index m, parent⟩ : Reference) = Reference.own (.index n) ↔
        sigil = .var ∧ parent = false ∧ m = n := by
      simp only [Reference.own, Reference.mk.injEq, SlotId.index.injEq]
      tauto
    rw [read_index _ rfl, read_index _ rfl, slot?_put]
    simp only [hown]
    split_ifs <;> rfl

/-- A variable that can be created is put with the value null. -/
lemma eq_put_of_create {s next : Store} {id : SlotId} {type : TypeTag}
    (h : s.create id type = .ok next) : ∃ n, id = .index n ∧ next = s.put n ⟨type, .null⟩ := by
  cases id with
  | argCount => simp [create] at h
  | index n =>
    simp only [create] at h
    split_ifs at h with hbefore
    exact ⟨n, rfl, (Except.ok.inj h).symm⟩

/-- Of two puts of one variable the second counts. -/
lemma put_put (s : Store) (n : UInt64) (first second : Slot) :
    (s.put n first).put n second = s.put n second := by
  simp [put, Table.insert_insert]

/-- A variable that has just been declared is set to a value of its type. -/
lemma set_put {s next : Store} {n : UInt64} {type : TypeTag} {v : Value}
    (h : (s.put n ⟨type, .null⟩).set (.index n) v = .ok next) : next = s.put n ⟨type, v⟩ := by
  have hslot : (s.put n ⟨type, .null⟩).scope.vars.get? n = some ⟨type, .null⟩ := by
    simp [put, Table.get?_insert]
  simp only [set, hslot] at h
  split_ifs at h with htag
  rw [← Except.ok.inj h, put_put]

end Store

/-- The value of an operand where a slot that does not exist counts as null. -/
def Operand.valueIn (s : Store) : Operand → Value
  | reference r => s.read r
  | literal v => v
  | reserved r => r.value

/-- The initial value of a variable where a slot that does not exist counts as null. -/
def Operand.initialIn (s : Store) (initial : Option Operand) : Value :=
  (initial.map (valueIn s)).getD .null

namespace Operand

@[simp] lemma eval_unchecked (s : Store) (o : Operand) :
    o.eval .unchecked s = .ok (o.valueIn s) := by
  cases o <;> rfl

/-- What can be evaluated with checks has the same value without. -/
lemma valueIn_of_eval_checked {s : Store} {o : Operand} {v : Value}
    (h : o.eval .checked s = .ok v) : o.valueIn s = v := by
  cases o with
  | reference r =>
    simp only [eval, valueIn, Store.read] at h ⊢
    cases hget : s.get r with
    | error fault => simp [hget, Except.map] at h
    | ok slot => simpa [hget, Except.map] using h
  | literal w => exact Except.ok.inj h
  | reserved r => exact Except.ok.inj h

@[simp] lemma mapM_eval_unchecked (s : Store) (operands : List Operand) :
    operands.mapM (eval .unchecked s) = .ok (operands.map (valueIn s)) := by
  induction operands with
  | nil => rfl
  | cons o rest ih =>
    rw [List.mapM_cons, eval_unchecked, ih]
    rfl

/-- Operands that can be evaluated with checks have the same values without. -/
lemma map_valueIn_of_mapM_checked {s : Store} {operands : List Operand} {vs : List Value}
    (h : operands.mapM (eval .checked s) = .ok vs) : operands.map (valueIn s) = vs := by
  induction operands generalizing vs with
  | nil => exact Except.ok.inj h
  | cons o rest ih =>
    rw [List.mapM_cons] at h
    obtain ⟨v, hfirst, hrest⟩ := bind_eq_ok_iff.1 h
    obtain ⟨ws, hmore, hcons⟩ := bind_eq_ok_iff.1 hrest
    rw [List.map_cons, valueIn_of_eval_checked hfirst, ih hmore]
    exact Except.ok.inj hcons

end Operand

namespace Store

/-- A variable that has been put can be looked up. -/
lemma get_put_own (s : Store) (n : UInt64) (slot : Slot) :
    (s.put n slot).get (Reference.own (.index n)) = .ok slot := by
  have hslot := s.slot?_put n n slot .var false
  simp only [and_self, if_true] at hslot
  simp only [get, Reference.own, hslot]

/-- A checked definition that succeeds puts its variable with the initial value, evaluated where
the variable is null. -/
lemma eq_put_of_define_checked {s next : Store} {id : SlotId} {type : TypeTag}
    {initial : Option Operand} (h : s.define .checked id type initial = .ok next) :
    ∃ n, id = .index n ∧
      next = s.put n ⟨type, Operand.initialIn (s.put n ⟨type, .null⟩) initial⟩ := by
  cases initial with
  | none => exact eq_put_of_create h
  | some o =>
    obtain ⟨declared, hcreate, hassign⟩ := bind_eq_ok_iff.1 h
    obtain ⟨n, rfl, rfl⟩ := eq_put_of_create hcreate
    obtain ⟨v, heval, hset⟩ := bind_eq_ok_iff.1 hassign
    refine ⟨n, rfl, ?_⟩
    rw [set_put hset, ← Operand.valueIn_of_eval_checked heval]
    rfl

/-- After a checked definition its variable can be looked up and has the initial value; other
references keep their values. -/
lemma read_define_checked {s next : Store} {id : SlotId} {type : TypeTag}
    {initial : Option Operand} (h : s.define .checked id type initial = .ok next) :
    ∃ n, id = .index n ∧ (∃ slot, next.get (Reference.own id) = .ok slot) ∧
      ∀ r, next.read r =
        if r = Reference.own id then Operand.initialIn (s.put n ⟨type, .null⟩) initial
        else s.read r := by
  obtain ⟨n, rfl, rfl⟩ := eq_put_of_define_checked h
  exact ⟨n, rfl, ⟨_, s.get_put_own n _⟩, s.read_put n _⟩

/-- An unchecked definition gives its variable the initial value and never fails. -/
lemma define_unchecked (s : Store) (id : SlotId) (type : TypeTag) (initial : Option Operand) :
    s.define .unchecked id type initial = .ok (s.write id type (Operand.initialIn s initial)) := by
  cases initial with
  | none => rfl
  | some o =>
    rw [define, Operand.eval_unchecked]
    rfl

end Store

/-! ### Definitions that carry a value over -/

/-- Whether a definition gives a variable its own old value and this value is written as
something. -/
def Store.carriesOver (s : Store) (id : SlotId) : Option Operand → Bool
  | some (.reference r) => r = Reference.own id && (s.read r).display != ""
  | _ => false

/-- Whether a node is a definition that carries a value over. -/
def Node.carriesOver (s : Store) : Node → Bool
  | define _ _ target initial => s.carriesOver target.id initial
  | _ => false

/-- Whether the checked run of a tree comes to a definition that carries a value over. -/
def Tree.carriesOver (m : Machine) : Tree → Bool
  | [] => false
  | node :: rest =>
    node.carriesOver m.store ||
      match node.interpret .checked m with
      | .ok next => Tree.carriesOver next rest
      | .error _ => false

/-! ### Alike stores -/

/-- Two stores in which every reference has values that are written alike. -/
def Store.Alike (s t : Store) : Prop :=
  ∀ r, (s.read r).Alike (t.read r)

/-- Two machines with alike stores and the same output. -/
structure Machine.Alike (m n : Machine) : Prop where
  store : m.store.Alike n.store
  console : m.console = n.console

lemma Machine.Alike.refl (m : Machine) : m.Alike m :=
  ⟨fun _ => Value.Alike.refl _, rfl⟩

/-- Operands have alike values in alike stores. -/
lemma Store.Alike.map_valueIn {s t : Store} (h : s.Alike t) (operands : List Operand) :
    List.Forall₂ Value.Alike (operands.map (Operand.valueIn s))
      (operands.map (Operand.valueIn t)) := by
  rw [List.forall₂_map_left_iff, List.forall₂_map_right_iff, List.forall₂_same]
  intro o ho
  cases o with
  | reference r => exact h r
  | literal v => exact Value.Alike.refl v
  | reserved r => exact Value.Alike.refl r.value

/-- A definition that carries nothing over has alike initial values in alike stores, even if in
the first store its variable has already become null. -/
lemma Store.Alike.initialIn {s t : Store} (h : s.Alike t) {n : UInt64} {type : TypeTag}
    {initial : Option Operand} (hnot : s.carriesOver (.index n) initial = false) :
    (Operand.initialIn (s.put n ⟨type, .null⟩) initial).Alike (Operand.initialIn t initial) := by
  cases initial with
  | none => exact Value.Alike.refl _
  | some o =>
    cases o with
    | reference r =>
      simp only [Operand.initialIn, Option.map_some, Option.getD_some, Operand.valueIn, read_put]
      split_ifs with hown
      · -- the variable itself: null here, and there something that is written as nothing
        have hempty : (s.read r).display = "" := by simpa [carriesOver, hown] using hnot
        exact (Value.alike_null hempty).trans (h r)
      · exact h r
    | literal v => exact Value.Alike.refl v
    | reserved r => exact Value.Alike.refl r.value

/-- A checked definition that succeeds and carries nothing over keeps stores alike. -/
lemma Store.Alike.define {s t next : Store} (h : s.Alike t) {id : SlotId} {type : TypeTag}
    {initial : Option Operand} (hnot : s.carriesOver id initial = false)
    (hok : s.define .checked id type initial = .ok next) :
    next.Alike (t.write id type (Operand.initialIn t initial)) := by
  obtain ⟨n, rfl, -, hread⟩ := read_define_checked hok
  intro r
  rw [hread, write, read_put]
  split_ifs with hown
  · exact h.initialIn hnot
  · exact h r

/-- A node that succeeds with checks and carries nothing over does the same without. -/
lemma Node.interpret_alike {m n next : Machine} (h : m.Alike n) {node : Node}
    (hnot : node.carriesOver m.store = false) (hok : node.interpret .checked m = .ok next) :
    ∃ other, node.interpret .unchecked n = .ok other ∧ next.Alike other := by
  cases node with
  | echo token text operands =>
    obtain ⟨vs, console, hvalues, hecho, rfl⟩ := interpret_echo_eq_ok_iff.1 hok
    have hvs := Operand.map_valueIn_of_mapM_checked hvalues
    have hsame : n.console.echo text (operands.map (Operand.valueIn n.store)) = .ok console := by
      rw [← Console.echo_congr (h.store.map_valueIn operands), hvs, ← h.console, hecho]
    refine ⟨⟨n.store, console⟩, ?_, h.store, rfl⟩
    exact interpret_echo_eq_ok_iff.2
      ⟨_, console, Operand.mapM_eval_unchecked n.store operands, hsame, rfl⟩
  | define token type target initial =>
    obtain ⟨store, hdefine, rfl⟩ := interpret_define_eq_ok_iff.1 hok
    refine ⟨_, interpret_define_eq_ok_iff.2 ⟨_, n.store.define_unchecked _ type initial, rfl⟩, ?_⟩
    exact ⟨h.store.define hnot hdefine, h.console⟩
  | const token v => exact ⟨n, rfl, by rwa [← Except.ok.inj hok]⟩
  | format token text => exact ⟨n, rfl, by rwa [← Except.ok.inj hok]⟩
  | store token text => exact ⟨n, rfl, by rwa [← Except.ok.inj hok]⟩
  | passthrough token => exact ⟨n, rfl, by rwa [← Except.ok.inj hok]⟩

/-- A tree that succeeds with checks and carries nothing over does the same without. -/
lemma Tree.interpret_alike {m n last : Machine} (h : m.Alike n) {tree : Tree}
    (hnot : tree.carriesOver m = false) (hok : tree.interpret .checked m = .ok last) :
    ∃ other, tree.interpret .unchecked n = .ok other ∧ last.Alike other := by
  induction tree generalizing m n with
  | nil => exact ⟨n, rfl, by rwa [← Except.ok.inj hok]⟩
  | cons node rest ih =>
    obtain ⟨next, hnext, hlast⟩ := interpret_cons_eq_ok_iff.1 hok
    simp only [carriesOver, hnext, Bool.or_eq_false_iff] at hnot
    obtain ⟨hnode, hrest⟩ := hnot
    obtain ⟨second, hsecond, halike⟩ := Node.interpret_alike h hnode hnext
    obtain ⟨other, hother, hend⟩ := ih halike hrest hlast
    exact ⟨other, interpret_cons_eq_ok_iff.2 ⟨second, hsecond, hother⟩, hend⟩

/-! ### Unchecked programs do not fail where checked ones succeed -/

/-- An output without a limit takes every text. -/
lemma Console.write_unlimited {c : Console} (hroom : c.room = none) (text : String) :
    c.write text = .ok { c with written := c.written ++ text } := by
  rw [write, hroom]

/-- An output without a limit takes every list of texts. -/
lemma Console.writeAll_unlimited {c : Console} (hroom : c.room = none) (texts : List String) :
    ∃ next, c.writeAll texts = .ok next ∧ next.room = none := by
  induction texts generalizing c with
  | nil => exact ⟨c, rfl, hroom⟩
  | cons text rest ih =>
    rw [writeAll, write_unlimited hroom]
    exact ih hroom

/-- On an output without a limit a template can be printed with some values if it can be printed
with as many other values. -/
lemma Template.printFrom_unlimited {c d next : Console} (hroom : d.room = none) {taken : ℕ}
    {t : Template} {vs ws : List Value} (hlength : vs.length = ws.length)
    (hok : printFrom taken c t vs = .ok next) :
    ∃ other, printFrom taken d t ws = .ok other ∧ other.room = none := by
  induction t generalizing taken c d vs ws with
  | nil => exact ⟨d, by rw [printFrom], hroom⟩
  | cons segment rest ih =>
    cases segment with
    | literal text =>
      rw [printFrom] at hok ⊢
      rw [Console.write_unlimited hroom]
      cases hwrite : c.write text with
      | error failed => simp [hwrite] at hok
      | ok second =>
        rw [hwrite] at hok
        exact ih (d := ⟨d.written ++ text, d.room⟩) hroom hlength hok
    | value directive =>
      cases vs with
      | nil => simp [printFrom] at hok
      | cons v vs =>
        cases ws with
        | nil => simp at hlength
        | cons w ws =>
          rw [printFrom] at hok ⊢
          rw [Console.write_unlimited hroom]
          have hmore : vs.length = ws.length := by simpa using hlength
          cases hwrite : c.write (directive.show v) with
          | error failed => simp [hwrite] at hok
          | ok second =>
            rw [hwrite] at hok
            exact ih (d := ⟨d.written ++ directive.show w, d.room⟩) hroom hmore hok

/-- On an output without a limit values can be printed if as many other values can. -/
lemma Console.echo_unlimited {c d next : Console} (hroom : d.room = none) {format : Option String}
    {vs ws : List Value} (hlength : vs.length = ws.length)
    (hok : c.echo format vs = .ok next) :
    ∃ other, d.echo format ws = .ok other ∧ other.room = none := by
  cases format with
  | none => exact writeAll_unlimited hroom _
  | some text => exact Template.printFrom_unlimited hroom hlength hok

/-- A node that succeeds with checks also does without, in any store. -/
lemma Node.interpret_unlimited {m n next : Machine} (hroom : n.console.room = none) {node : Node}
    (hok : node.interpret .checked m = .ok next) :
    ∃ other, node.interpret .unchecked n = .ok other ∧ other.console.room = none := by
  cases node with
  | echo token text operands =>
    obtain ⟨vs, console, hvalues, hecho, -⟩ := interpret_echo_eq_ok_iff.1 hok
    have hlength : vs.length = (operands.map (Operand.valueIn n.store)).length := by
      rw [← Operand.map_valueIn_of_mapM_checked hvalues, List.length_map, List.length_map]
    obtain ⟨other, hother, hend⟩ := Console.echo_unlimited hroom hlength hecho
    refine ⟨⟨n.store, other⟩, ?_, hend⟩
    exact interpret_echo_eq_ok_iff.2
      ⟨_, other, Operand.mapM_eval_unchecked n.store operands, hother, rfl⟩
  | define token type target initial =>
    have hdefine := n.store.define_unchecked target.id type initial
    exact ⟨_, interpret_define_eq_ok_iff.2 ⟨_, hdefine, rfl⟩, hroom⟩
  | const token v => exact ⟨n, rfl, hroom⟩
  | format token text => exact ⟨n, rfl, hroom⟩
  | store token text => exact ⟨n, rfl, hroom⟩
  | passthrough token => exact ⟨n, rfl, hroom⟩

/-- A tree that succeeds with checks also does without, from any store. -/
lemma Tree.interpret_unlimited {m n last : Machine} (hroom : n.console.room = none) {tree : Tree}
    (hok : tree.interpret .checked m = .ok last) :
    ∃ other, tree.interpret .unchecked n = .ok other ∧ other.console.room = none := by
  induction tree generalizing m n with
  | nil => exact ⟨n, rfl, hroom⟩
  | cons node rest ih =>
    obtain ⟨next, hnext, hlast⟩ := interpret_cons_eq_ok_iff.1 hok
    obtain ⟨second, hsecond, hunlimited⟩ := Node.interpret_unlimited hroom hnext
    obtain ⟨other, hother, hend⟩ := ih hunlimited hlast
    exact ⟨other, interpret_cons_eq_ok_iff.2 ⟨second, hsecond, hother⟩, hend⟩

/-! ### Telling the modes apart -/

/-- The first definition of a successful checked run that carries a value over. -/
lemma Tree.exists_first_carriesOver {m last : Machine} {tree : Tree}
    (hcarries : tree.carriesOver m = true) (hok : tree.interpret .checked m = .ok last) :
    ∃ (before : Tree) (node : Node) (after : Tree) (mid next : Machine),
      tree = before ++ node :: after ∧
      before.carriesOver m = false ∧ before.interpret .checked m = .ok mid ∧
      node.carriesOver mid.store = true ∧ node.interpret .checked mid = .ok next := by
  induction tree generalizing m with
  | nil => simp [carriesOver] at hcarries
  | cons node rest ih =>
    obtain ⟨next, hnext, hlast⟩ := interpret_cons_eq_ok_iff.1 hok
    by_cases hnode : node.carriesOver m.store = true
    · exact ⟨[], node, rest, m, next, rfl, rfl, rfl, hnode, hnext⟩
    · rw [Bool.not_eq_true] at hnode
      simp only [carriesOver, hnode, hnext, Bool.false_or] at hcarries
      obtain ⟨before, later, after, mid, stop, rfl, hnot, hmid, hlater, hstop⟩ :=
        ih hcarries hlast
      refine ⟨node :: before, later, after, mid, stop, rfl, ?_, ?_, hlater, hstop⟩
      · simp only [carriesOver, hnode, hnext, hnot, Bool.or_false]
      · exact interpret_cons_eq_ok_iff.2 ⟨next, hnext, hmid⟩

/-- What a definition that carries a value over looks like. -/
lemma Node.eq_define_of_carriesOver {s : Store} {node : Node}
    (h : node.carriesOver s = true) :
    ∃ token type target,
      node = .define token type target (some (.reference (Reference.own target.id))) ∧
        (s.read (Reference.own target.id)).display ≠ "" := by
  cases node with
  | define token type target initial =>
    rcases initial with - | ⟨r⟩ | ⟨v⟩ | ⟨r⟩
    · simp [carriesOver, Store.carriesOver] at h
    · have hboth : r = Reference.own target.id ∧ (s.read r).display ≠ "" := by
        simpa [carriesOver, Store.carriesOver] using h
      obtain ⟨rfl, hshown⟩ := hboth
      exact ⟨token, type, target, rfl, hshown⟩
    · simp [carriesOver, Store.carriesOver] at h
    · simp [carriesOver, Store.carriesOver] at h
  | _ => simp [carriesOver] at h

/-- A definition that carries a value over leaves its variable null with checks, and with its old
value without. -/
lemma Node.interpret_of_carriesOver {m n next : Machine} (h : m.Alike n) {node : Node}
    (hcarries : node.carriesOver m.store = true) (hok : node.interpret .checked m = .ok next) :
    ∃ r slot other, node.interpret .unchecked n = .ok other ∧ next.console = other.console ∧
      next.store.get r = .ok slot ∧ slot.value = .null ∧ (other.store.read r).display ≠ "" := by
  obtain ⟨token, type, ⟨sigil, id, parent⟩, rfl, hshown⟩ := eq_define_of_carriesOver hcarries
  obtain ⟨store, hdefine, rfl⟩ := interpret_define_eq_ok_iff.1 hok
  obtain ⟨i, rfl, ⟨slot, hslot⟩, hread⟩ := Store.read_define_checked hdefine
  have hvalue : slot.value = store.read (Reference.own (.index i)) := by rw [Store.read, hslot]
  have hother := n.store.define_unchecked (.index i) type
    (some (.reference (Reference.own (.index i))))
  refine ⟨Reference.own (.index i), slot, _, interpret_define_eq_ok_iff.2 ⟨_, hother, rfl⟩,
    h.console, hslot, ?_, ?_⟩
  · -- with checks, the initial value is read from the variable that has become null
    rw [hvalue, hread, if_pos rfl]
    simp [Operand.initialIn, Operand.valueIn, Store.read_put]
  · rw [(h.store _).display] at hshown
    simpa [Store.write, Store.read_put, Operand.initialIn, Operand.valueIn] using hshown

/-- Whether an `echo` of one reference after a part of the tree prints something else in checked
mode than in unchecked mode. -/
def Tree.ToldApart (depth : ℕ) (arguments : List String) (tree : Tree) : Prop :=
  ∃ before after token reference first second, tree = before ++ after ∧
    (Program.ofTree (before ++ [.echo token none [.reference reference]])
      ⟨.checked, depth⟩).run arguments = .ok first ∧
    (Program.ofTree (before ++ [.echo token none [.reference reference]])
      ⟨.unchecked, depth⟩).run arguments = .ok second ∧
    first ≠ second

/-- On an output without a limit an `echo` of one reference adds the text of its value. -/
lemma Node.interpret_echo_reference {mode : Mode} {m : Machine} {r : Reference} {v : Value}
    (hroom : m.console.room = none) (heval : (Operand.reference r).eval mode m.store = .ok v)
    (token : Token) :
    (Node.echo token none [.reference r]).interpret mode m =
      .ok ⟨m.store, ⟨m.console.written ++ v.display, m.console.room⟩⟩ := by
  have hvalues : [Operand.reference r].mapM (Operand.eval mode m.store) = .ok [v] := by
    rw [List.mapM_cons, heval]
    rfl
  refine interpret_echo_eq_ok_iff.2 ⟨[v], _, hvalues, ?_, rfl⟩
  simp only [Console.echo, List.map_cons, List.map_nil, Console.writeAll,
    Console.write_unlimited hroom]

/-- Two alike machines that print without a limit are told apart after a definition that carries
a value over. -/
lemma Node.exists_echo_ne {m n next : Machine} (h : m.Alike n) (hroom : n.console.room = none)
    {node : Node} (hcarries : node.carriesOver m.store = true)
    (hok : node.interpret .checked m = .ok next) (token : Token) :
    ∃ (r : Reference) (first second : Machine),
      Tree.interpret .checked m [node, .echo token none [.reference r]] = .ok first ∧
      Tree.interpret .unchecked n [node, .echo token none [.reference r]] = .ok second ∧
      first.console.written ≠ second.console.written := by
  obtain ⟨r, slot, other, hother, hconsole, hslot, hnull, hshown⟩ :=
    interpret_of_carriesOver h hcarries hok
  obtain ⟨same, hsame, hlimit⟩ := interpret_unlimited hroom hok
  obtain rfl : other = same := Except.ok.inj (hother.symm.trans hsame)
  have hchecked : (Operand.reference r).eval .checked next.store = .ok .null := by
    simp only [Operand.eval, hslot, Except.map, hnull]
  have hunchecked : (Operand.reference r).eval .unchecked other.store = .ok (other.store.read r) :=
    rfl
  have hfirst := interpret_echo_reference (by rw [hconsole]; exact hlimit) hchecked token
  have hsecond := interpret_echo_reference hlimit hunchecked token
  refine ⟨r, _, _,
    Tree.interpret_cons_eq_ok_iff.2 ⟨next, hok, Tree.interpret_cons_eq_ok_iff.2 ⟨_, hfirst, rfl⟩⟩,
    Tree.interpret_cons_eq_ok_iff.2 ⟨other, hother,
      Tree.interpret_cons_eq_ok_iff.2 ⟨_, hsecond, rfl⟩⟩, ?_⟩
  -- the same text, once with nothing and once with the old value after it
  change next.console.written ++ "" ≠ other.console.written ++ (other.store.read r).display
  rw [hconsole, String.append_empty]
  intro hequal
  exact hshown (String.append_eq_left_iff.1 hequal.symm)

/-- A tree that carries a value over in its checked run is told apart. -/
lemma Tree.toldApart_of_carriesOver {depth : ℕ} {arguments : List String} {tree : Tree}
    {last : Machine} (hcarries : tree.carriesOver (Machine.initial arguments none) = true)
    (hok : tree.interpret .checked (Machine.initial arguments none) = .ok last) :
    tree.ToldApart depth arguments := by
  obtain ⟨before, node, after, mid, next, rfl, hnot, hmid, hnode, hnext⟩ :=
    exists_first_carriesOver hcarries hok
  obtain ⟨other, hother, halike⟩ := interpret_alike (Machine.Alike.refl _) hnot hmid
  obtain ⟨same, hsame, hlimit⟩ :=
    interpret_unlimited (n := Machine.initial arguments none) rfl hmid
  obtain rfl : other = same := Except.ok.inj (hother.symm.trans hsame)
  obtain ⟨r, first, second, hfirst, hsecond, hne⟩ :=
    Node.exists_echo_ne halike hlimit hnode hnext node.token
  refine ⟨before ++ [node], after, node.token, r, first.console.written, second.console.written,
    by simp, ?_, ?_, hne⟩
  · rw [Program.run_ofTree_eq_ok_iff, List.append_assoc]
    exact ⟨first, interpret_append_eq_ok_iff.2 ⟨mid, hmid, hfirst⟩, rfl⟩
  · rw [Program.run_ofTree_eq_ok_iff, List.append_assoc]
    exact ⟨second, interpret_append_eq_ok_iff.2 ⟨other, hother, hsecond⟩, rfl⟩

/-- A part of a tree that carries nothing over still does not with an `echo` after it. -/
lemma Tree.carriesOver_append_echo {m : Machine} {before after : Tree}
    (h : Tree.carriesOver m (before ++ after) = false) (token : Token) (text : Option String)
    (operands : List Operand) :
    Tree.carriesOver m (before ++ [.echo token text operands]) = false := by
  induction before generalizing m with
  | nil =>
    simp only [List.nil_append, carriesOver, Node.carriesOver, Bool.false_or]
    split <;> rfl
  | cons node rest ih =>
    rw [List.cons_append, carriesOver, Bool.or_eq_false_iff] at h ⊢
    refine ⟨h.1, ?_⟩
    cases hnode : node.interpret .checked m with
    | error failed => rfl
    | ok next =>
      rw [hnode] at h
      exact ih h.2

/-- A tree that carries nothing over in its checked run prints the same in both modes. -/
lemma Tree.run_unchecked {depth : ℕ} {arguments : List String} {tree : Tree} {printed : String}
    (hnot : tree.carriesOver (Machine.initial arguments none) = false)
    (hrun : (Program.ofTree tree ⟨.checked, depth⟩).run arguments = .ok printed) :
    (Program.ofTree tree ⟨.unchecked, depth⟩).run arguments = .ok printed := by
  obtain ⟨last, hok, hprinted⟩ := Program.run_ofTree_eq_ok_iff.1 hrun
  obtain ⟨other, hother, halike⟩ := interpret_alike (Machine.Alike.refl _) hnot hok
  exact Program.run_ofTree_eq_ok_iff.2 ⟨other, hother, by rw [← halike.console, hprinted]⟩

/-- The modes are told apart exactly by the trees that carry a value over in their checked
run. -/
lemma Tree.toldApart_iff {depth : ℕ} {arguments : List String} {tree : Tree} {last : Machine}
    (hok : tree.interpret .checked (Machine.initial arguments none) = .ok last) :
    tree.ToldApart depth arguments ↔
      tree.carriesOver (Machine.initial arguments none) = true := by
  refine ⟨?_, fun hcarries => toldApart_of_carriesOver hcarries hok⟩
  rintro ⟨before, after, token, r, first, second, rfl, hfirst, hsecond, hne⟩
  by_contra hnot
  rw [Bool.not_eq_true] at hnot
  have hsame := run_unchecked (carriesOver_append_echo hnot token none [.reference r]) hfirst
  exact hne (Except.ok.inj (hsame.symm.trans hsecond))

/-! ### The two programs of a source -/

/-- If the checked program of a source runs without an error, then so does the unchecked one.
They print the same unless the checked run comes to a definition that carries a value over, and
only after such a definition can an `echo` tell the modes apart. -/
theorem Program.ofSource_run_unchecked {source : String} {depth : ℕ} {arguments : List String}
    {program : Program} {printed : String}
    (hbuild : Program.ofSource source ⟨.checked, depth⟩ = .ok program)
    (hrun : program.run arguments = .ok printed) :
    ∃ tree unchecked other, Tree.ofSource source = .ok tree ∧
      Program.ofSource source ⟨.unchecked, depth⟩ = .ok unchecked ∧
      unchecked.run arguments = .ok other ∧
      (tree.carriesOver (Machine.initial arguments none) = false → other = printed) ∧
      (tree.carriesOver (Machine.initial arguments none) = true ↔
        tree.ToldApart depth arguments) := by
  obtain ⟨tree, htree, rfl⟩ := map_eq_ok_iff.1 hbuild
  obtain ⟨last, hok, -⟩ := Program.run_ofTree_eq_ok_iff.1 hrun
  obtain ⟨stop, hstop, -⟩ :=
    Tree.interpret_unlimited (n := Machine.initial arguments none) rfl hok
  have hunchecked : Program.ofSource source ⟨.unchecked, depth⟩ =
      .ok (Program.ofTree tree ⟨.unchecked, depth⟩) := by rw [Program.ofSource, htree]; rfl
  have hother : (Program.ofTree tree ⟨.unchecked, depth⟩).run arguments =
      .ok stop.console.written := Program.run_ofTree_eq_ok_iff.2 ⟨stop, hstop, rfl⟩
  refine ⟨tree, _, stop.console.written, htree, hunchecked, hother, fun hnot => ?_, ?_⟩
  · exact Except.ok.inj (hother.symm.trans (Tree.run_unchecked hnot hrun))
  · exact (Tree.toldApart_iff hok).symm

/-- A program argument that is copied twice, and a variable that is declared again, print the
same in both modes. -/
theorem Program.ofSource_run_unchecked_copies :
    ∃ program unchecked,
      Program.ofSource ":define:text:~0:store:^~0:define:text:~1:store:~0:define:fn:~0:echo:~1:~0"
        ⟨.checked, 3⟩ = .ok program ∧ program.run ["a"] = .ok "a" ∧
      Program.ofSource ":define:text:~0:store:^~0:define:text:~1:store:~0:define:fn:~0:echo:~1:~0"
        ⟨.unchecked, 3⟩ = .ok unchecked ∧ unchecked.run ["a"] = .ok "a" := by
  generalize hsource :
    ":define:text:~0:store:^~0:define:text:~1:store:~0:define:fn:~0:echo:~1:~0" = source
  have hchecked : (Program.ofSource source ⟨.checked, 3⟩).map (·.run ["a"]) = .ok (.ok "a") := by
    rw [← hsource]
    decide +kernel
  have hcarries : (Tree.ofSource source).map (·.carriesOver (Machine.initial ["a"] none)) =
      .ok false := by
    rw [← hsource]
    decide +kernel
  obtain ⟨program, hbuild, hrun⟩ := map_eq_ok_iff.1 hchecked
  obtain ⟨tree, htree, hnot⟩ := map_eq_ok_iff.1 hcarries
  obtain ⟨same, unchecked, other, hsame, hunchecked, hother, hprinted, -⟩ :=
    ofSource_run_unchecked hbuild hrun
  obtain rfl : tree = same := Except.ok.inj (htree.symm.trans hsame)
  obtain rfl : other = "a" := hprinted hnot
  exact ⟨program, unchecked, hbuild, hrun, hunchecked, hother⟩

/-- A variable that is defined again by itself is printed as nothing in checked mode and with its
old value in unchecked mode. -/
theorem Program.ofSource_run_differs :
    ∃ checked unchecked,
      Program.ofSource ":define:static:~0:store:const@5\n:define:static:~0:store:~0\n:echo:~0"
        ⟨.checked, 10⟩ = .ok checked ∧ checked.run [] = .ok "" ∧
      Program.ofSource ":define:static:~0:store:const@5\n:define:static:~0:store:~0\n:echo:~0"
        ⟨.unchecked, 10⟩ = .ok unchecked ∧ unchecked.run [] = .ok "5" := by
  generalize hsource :
    ":define:static:~0:store:const@5\n:define:static:~0:store:~0\n:echo:~0" = source
  have hchecked : (Program.ofSource source ⟨.checked, 10⟩).map (·.run []) = .ok (.ok "") := by
    rw [← hsource]
    decide +kernel
  have hunchecked : (Program.ofSource source ⟨.unchecked, 10⟩).map (·.run []) = .ok (.ok "5") := by
    rw [← hsource]
    decide +kernel
  obtain ⟨checked, hbuild, hrun⟩ := map_eq_ok_iff.1 hchecked
  obtain ⟨unchecked, hother, hprinted⟩ := map_eq_ok_iff.1 hunchecked
  exact ⟨checked, unchecked, hbuild, hrun, hother, hprinted⟩

end ColonScript
