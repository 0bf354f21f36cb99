import ColonScript.Proofs.ModeAgreement
import ColonScript.Proofs.Output

/-!
# The contents of program arguments

A program can print its arguments, store them and copy them, but whether it fails, and with which
error, depends only on how many there are.

Two runs with as many arguments are compared statement by statement.  Their stores keep the same
shape: they have the same slots of the same types, and corresponding slots hold values of the
same type, although the values themselves may differ (`Store.SameShape`).  All checks of the store
look at types only, and a format is a constant of the program, so corresponding statements
succeed or fail together and with the same fault (`Program.matched_step`), and so do whole runs
(`Program.matched_steps`).
-/

namespace ColonScript

/-! ### Results that match -/

/-- Two results that are both successes with related values, or both failures with related
errors. -/
inductive Matched {ε δ α β : Type} (E : ε → δ → Prop) (R : α → β → Prop) :
    Except ε α → Except δ β → Prop
  | ok {a : α} {b : β} (h : R a b) : Matched E R (.ok a) (.ok b)
  | error {e : ε} {d : δ} (h : E e d) : Matched E R (.error e) (.error d)

namespace Matched

variable {ε δ ε' δ' α β α' β' : Type} {E : ε → δ → Prop} {E' : ε' → δ' → Prop}
  {R : α → β → Prop} {R' : α' → β' → Prop} {x : Except ε α} {y : Except δ β}

/-- Matching steps after matching steps match. -/
lemma bind (h : Matched E R x y) {k : α → Except ε α'} {l : β → Except δ β'}
    (hk : ∀ a b, R a b → Matched E R' (k a) (l b)) : Matched E R' (x.bind k) (y.bind l) := by
  cases h with
  | ok hab => exact hk _ _ hab
  | error hed => exact .error hed

/-- Matching results match after a change of the values on both sides. -/
lemma map (h : Matched E R x y) {f : α → α'} {g : β → β'}
    (hf : ∀ a b, R a b → R' (f a) (g b)) : Matched E R' (x.map f) (y.map g) := by
  cases h with
  | ok hab => exact .ok (hf _ _ hab)
  | error hed => exact .error hed

/-- Matching results match after a change of the errors on both sides. -/
lemma mapError (h : Matched E R x y) {f : ε → ε'} {g : δ → δ'}
    (hf : ∀ e d, E e d → E' (f e) (g d)) : Matched E' R (x.mapError f) (y.mapError g) := by
  cases h with
  | ok hab => exact .ok hab
  | error hed => exact .error (hf _ _ hed)

end Matched

/-! ### Stores of the same shape -/

/-- Two values of the same type. -/
def Value.SameTag (v w : Value) : Prop :=
  v.tag = w.tag

/-- Two slots of the same type that hold values of the same type. -/
structure Slot.SameShape (s t : Slot) : Prop where
  type : s.type = t.type
  value : s.value.SameTag t.value

/-- Two tables with the same slots up to the contents of their values. -/
def Table.SameShape (t u : Table) : Prop :=
  ∀ n, Option.Rel Slot.SameShape (t.get? n) (u.get? n)

/-- Two scopes whose tables have the same shape. -/
def Scope.SameShape (s t : Scope) : Prop :=
  ∀ sigil, (s.table sigil).SameShape (t.table sigil)

/-- Two stores whose scopes have the same shape, with as many program arguments. -/
structure Store.SameShape (s t : Store) : Prop where
  scope : s.scope.SameShape t.scope
  outer : List.Forall₂ Scope.SameShape s.outer t.outer
  arguments : s.arguments.length = t.arguments.length

/-- Slots of the same shape can be written into tables of the same shape. -/
lemma Table.SameShape.insert {t u : Table} (h : t.SameShape u) (n : UInt64) {a b : Slot}
    (hab : a.SameShape b) : (t.insert n a).SameShape (u.insert n b) := by
  intro m
  rw [get?_insert, get?_insert]
  by_cases hm : m = n
  · simp only [hm, if_true]
    exact .some hab
  · simp only [hm, if_false]
    exact h m

/-- Tables of the same shape have slots at the same places. -/
lemma Table.SameShape.contains_eq {t u : Table} (h : t.SameShape u) (n : UInt64) :
    t.contains n = u.contains n := by
  have hslot := h n
  rw [contains, contains]
  generalize t.get? n = a at hslot
  generalize u.get? n = b at hslot
  cases hslot <;> rfl

namespace Store.SameShape

variable {s t : Store}

/-- Before a run, stores have the same shape if there are as many arguments. -/
lemma initial {first second : List String} (h : first.length = second.length) (depth : ℕ) :
    Store.SameShape { arguments := first, maxDepth := depth }
      { arguments := second, maxDepth := depth } where
  scope := by
    intro sigil n
    cases sigil <;> exact .none
  outer := .nil
  arguments := h

lemma depth_eq (h : s.SameShape t) : s.depth = t.depth :=
  h.outer.length_eq

/-- Slots of the same shape can be put into stores of the same shape. -/
lemma put (h : s.SameShape t) (n : UInt64) {a b : Slot} (hab : a.SameShape b) :
    (s.put n a).SameShape (t.put n b) where
  scope := by
    intro sigil
    cases sigil with
    | var => exact (h.scope .var).insert n hab
    | fn => exact h.scope .fn
  outer := h.outer
  arguments := h.arguments

/-- A declaration is refused by both stores or by neither. -/
lemma matched_create (h : s.SameShape t) (id : SlotId) (type : TypeTag) :
    Matched Eq Store.SameShape (s.create id type) (t.create id type) := by
  cases id with
  | argCount => exact .error rfl
  | index n =>
    have hcontains := (h.scope .var).contains_eq (n - 1)
    simp only [Scope.table] at hcontains
    rw [create, create, hcontains, h.depth_eq]
    split_ifs
    · exact .ok (h.put n ⟨rfl, rfl⟩)
    · exact .error rfl

/-- An assignment of values of one type is refused by both stores or by neither. -/
lemma matched_set (h : s.SameShape t) (id : SlotId) {v w : Value} (hvw : v.SameTag w) :
    Matched Eq Store.SameShape (s.set id v) (t.set id w) := by
  cases id with
  | argCount => exact .error rfl
  | index n =>
    have hslot : Option.Rel Slot.SameShape (s.scope.vars.get? n) (t.scope.vars.get? n) :=
      h.scope .var n
    rw [set, set, h.depth_eq]
    generalize s.scope.vars.get? n = a at hslot
    generalize t.scope.vars.get? n = b at hslot
    cases hslot with
    | none => exact .error rfl
    | @some slot other hslots =>
      have htag : v.tag = w.tag := hvw
      simp only [htag, hslots.type]
      split_ifs
      · exact .ok (h.put n ⟨rfl, hvw⟩)
      · exact .error rfl

/-- A reference leads to slots of the same shape or to none. -/
lemma slot? (h : s.SameShape t) (r : Reference) (n : UInt64) :
    Option.Rel Slot.SameShape (s.slot? r n) (t.slot? r n) := by
  have hargument : Option.Rel Slot.SameShape (s.argument? n) (t.argument? n) := by
    have hlength := h.arguments
    rw [argument?, argument?]
    by_cases hn : n.toNat < s.arguments.length
    · rw [List.getElem?_eq_getElem hn, List.getElem?_eq_getElem (hlength ▸ hn)]
      exact .some ⟨rfl, rfl⟩
    · have hle : s.arguments.length ≤ n.toNat := Nat.le_of_not_lt hn
      rw [List.getElem?_eq_none hle, List.getElem?_eq_none (hlength ▸ hle)]
      exact .none
  have houter := h.outer
  rw [Store.slot?, Store.slot?]
  cases r.parent with
  | false => exact h.scope r.sigil n
  | true =>
    generalize s.outer = a at houter
    generalize t.outer = b at houter
    cases houter with
    | nil => exact hargument
    | cons hscope _ => exact hscope r.sigil n

/-- A reference is looked up at the same depth. -/
lemma lookupDepth_eq (h : s.SameShape t) (parent : Bool) :
    s.lookupDepth parent = t.lookupDepth parent := by
  have houter := h.outer
  have hdepth := h.depth_eq
  unfold lookupDepth
  cases parent with
  | false => rw [hdepth]
  | true =>
    generalize s.outer = a at houter
    generalize t.outer = b at houter
    cases houter with
    | nil => rfl
    | cons _ hmore => exact congrArg some hmore.length_eq

/-- A reference to a slot is refused by both stores or by neither. -/
lemma matched_get (h : s.SameShape t) (r : Reference) :
    Matched Eq Slot.SameShape (s.get r) (t.get r) := by
  rw [get, get]
  cases r.id with
  | argCount =>
    rw [argumentCount, argumentCount, h.arguments]
    exact .ok ⟨rfl, rfl⟩
  | index n =>
    have hslot := h.slot? r n
    dsimp only
    rw [h.lookupDepth_eq]
    generalize s.slot? r n = a at hslot
    generalize t.slot? r n = b at hslot
    cases hslot with
    | none => exact .error rfl
    | some hslots => exact .ok hslots

/-- A reference has values of one type, null where there is no slot. -/
lemma read (h : s.SameShape t) (r : Reference) : (s.read r).SameTag (t.read r) := by
  have hget := h.matched_get r
  rw [Store.read, Store.read]
  generalize s.get r = a at hget
  generalize t.get r = b at hget
  cases hget with
  | ok hslots => exact hslots.value
  | error _ => rfl

/-- Values of one type can be written into stores of the same shape. -/
lemma write (h : s.SameShape t) (id : SlotId) (type : TypeTag) {v w : Value}
    (hvw : v.SameTag w) : (s.write id type v).SameShape (t.write id type w) := by
  cases id with
  | argCount => exact h
  | index n => exact h.put n ⟨rfl, hvw⟩

end Store.SameShape

/-! ### Statements -/

/-- Two failures by the same fault, whatever was printed before. -/
def Failed.SameFault (first second : Failed) : Prop :=
  first.1 = second.1

/-- Two outputs without a limit. -/
def Console.BothUnlimited (c d : Console) : Prop :=
  c.room = none ∧ d.room = none

/-- Two machines whose stores have the same shape and that print without a limit. -/
structure Machine.SameShape (m n : Machine) : Prop where
  store : m.store.SameShape n.store
  console : m.console.BothUnlimited n.console

/-- Outputs without a limit take all texts. -/
lemma Console.matched_write {c d : Console} (hcd : c.BothUnlimited d) (text other : String) :
    Matched Failed.SameFault Console.BothUnlimited (c.write text) (d.write other) := by
  rw [write_unlimited hcd.1, write_unlimited hcd.2]
  exact .ok hcd

/-- A template asks for a value too many with both lists of values or with neither. -/
lemma Template.matched_printFrom {c d : Console} (hcd : c.BothUnlimited d) (taken : ℕ)
    (t : Template) {vs ws : List Value} (hlength : vs.length = ws.length) :
    Matched Failed.SameFault Console.BothUnlimited (printFrom taken c t vs)
      (printFrom taken d t ws) := by
  induction t generalizing taken c d vs ws with
  | nil =>
    rw [printFrom, printFrom]
    exact .ok hcd
  | cons segment rest ih =>
    cases segment with
    | literal text =>
      rw [printFrom_literal, printFrom_literal]
      exact (Console.matched_write hcd text text).bind fun _ _ hnext => ih hnext taken hlength
    | value directive =>
      cases vs with
      | nil =>
        obtain rfl : ws = [] := List.length_eq_zero_iff.1 hlength.symm
        exact .error rfl
      | cons v vs =>
        obtain ⟨w, others, rfl⟩ := List.exists_cons_of_length_eq_add_one hlength.symm
        have hmore : vs.length = others.length := by simpa using hlength
        rw [printFrom_value, printFrom_value]
        exact (Console.matched_write hcd _ _).bind fun _ _ hnext => ih hnext (taken + 1) hmore

/-- A change of two stores that matches is one of the machines. -/
lemma Matched.update {x y : Except Fault Store} (h : Matched Eq Store.SameShape x y)
    {c d : Console} (hcd : c.BothUnlimited d) :
    Matched Failed.SameFault Machine.SameShape (Machine.update c x) (Machine.update d y) := by
  cases h with
  | ok hstore => exact .ok ⟨hstore, hcd⟩
  | error hfault => exact .error hfault

namespace Program

variable (p : Program)

/-- A load is refused in both stores or in neither, and gives values of one type. -/
lemma matched_load {s t : Store} (h : s.SameShape t) (l : Load) :
    Matched Eq Value.SameTag (p.load s l) (p.load t l) := by
  cases l with
  | const index => exact .ok rfl
  | reserved r => exact .ok rfl
  | slot r => exact (h.matched_get r).map fun _ _ hslots => hslots.value
  | slotUnchecked r => exact .ok (h.read r)

/-- Loads are refused in both stores or in neither, and give as many values. -/
lemma matched_loadAll {s t : Store} (h : s.SameShape t) (loads : List Load) :
    Matched Eq (fun vs ws => vs.length = ws.length) (p.loadAll s loads) (p.loadAll t loads) := by
  induction loads with
  | nil => exact .ok rfl
  | cons l rest ih =>
    rw [loadAll_cons, loadAll_cons]
    refine (p.matched_load h l).bind fun v w _ => ih.map fun vs ws hlength => ?_
    rw [List.length_cons, List.length_cons, hlength]

/-- Printing as many values fails in both runs or in neither. -/
lemma matched_print {c d : Console} (hcd : c.BothUnlimited d) (format : Option ℕ)
    {vs ws : List Value} (hlength : vs.length = ws.length) :
    Matched Failed.SameFault Console.BothUnlimited (p.print c format vs) (p.print d format ws) := by
  cases format with
  | some index => exact Template.matched_printFrom hcd 0 _ hlength
  | none =>
    obtain ⟨next, hnext, hroom⟩ := Console.writeAll_unlimited hcd.1 (vs.map Value.display)
    obtain ⟨other, hother, hroom'⟩ := Console.writeAll_unlimited hcd.2 (ws.map Value.display)
    rw [print, print, hnext, hother]
    exact .ok ⟨hroom, hroom'⟩

/-- A statement fails in both runs by the same fault or in neither, and then the stores keep the
same shape. -/
lemma matched_step {m n : Machine} (h : m.SameShape n) (a : Action) :
    Matched Failed.SameFault Machine.SameShape (p.step m a) (p.step n a) := by
  obtain ⟨hstore, hconsole⟩ := h
  cases a with
  | create id type => exact (hstore.matched_create id type).update hconsole
  | set id l =>
    have hset := (p.matched_load hstore l).bind fun v w hvw => hstore.matched_set id hvw
    rw [step_set, step_set]
    exact hset.update hconsole
  | write id type value =>
    cases value with
    | none => exact .ok ⟨hstore.write id type rfl, hconsole⟩
    | some l =>
      have hwrite := (p.matched_load hstore l).map fun v w hvw => hstore.write id type hvw
      rw [step_write, step_write]
      exact hwrite.update hconsole
  | echo format loads =>
    have hloads : Matched Failed.SameFault (fun vs ws => vs.length = ws.length)
        ((p.loadAll m.store loads).mapError fun fault => (fault, m.console))
        ((p.loadAll n.store loads).mapError fun fault => (fault, n.console)) :=
      (p.matched_loadAll hstore loads).mapError fun _ _ hfault => hfault
    rw [step_echo, step_echo]
    refine hloads.bind fun vs ws hlength => ?_
    exact (p.matched_print hconsole format hlength).map fun _ _ hroom => ⟨hstore, hroom⟩

/-- Two runs from machines of the same shape fail with the same error or both succeed. -/
lemma matched_steps {m n : Machine} (h : m.SameShape n) (statements : List Statement) :
    Matched (fun first second => first.1 = second.1) Machine.SameShape (p.steps m statements)
      (p.steps n statements) := by
  induction statements generalizing m n with
  | nil => exact .ok h
  | cons s rest ih =>
    rw [steps_cons, steps_cons]
    refine ((p.matched_step h s.action).mapError ?_).bind fun _ _ => ih
    intro first second hfault
    have hsame : first.1 = second.1 := hfault
    simp only [Failed.onLine, hsame]

/-- With as many arguments a program succeeds whatever the arguments are, or it fails with the
same error on the same line whatever they are. -/
theorem run_arguments_contents {first second : List String}
    (hlength : first.length = second.length) :
    (∃ printed other, p.run first = .ok printed ∧ p.run second = .ok other) ∨
      ∃ e, p.run first = .error e ∧ p.run second = .error e := by
  have hstart : (p.start first none).SameShape (p.start second none) :=
    ⟨Store.SameShape.initial hlength p.settings.maxDepth, rfl, rfl⟩
  have hends := p.matched_steps hstart p.statements
  rw [run, run, execute, execute]
  generalize p.steps (p.start first none) p.statements = x at hends
  generalize p.steps (p.start second none) p.statements = y at hends
  cases hends with
  | ok _ => exact .inl ⟨_, _, rfl, rfl⟩
  | @error failed other herror =>
    refine .inr ⟨failed.1, rfl, ?_⟩
    rw [herror]
    rfl

/-- An argument is stored, printed as an integer and then assigned to a variable for integers: the
assignment fails in the same way whether the argument is a numeral or not. -/
theorem run_arguments_contents_mismatch :
    ∃ p : Program, ["7"].length = ["x"].length ∧
      p.run ["7"] = .error ⟨.typeMismatch .static .text, some 3⟩ ∧
      p.run ["x"] = .error ⟨.typeMismatch .static .text, some 3⟩ := by
  let p : Program := {
    settings := {}
    constants := [.text "%d"]
    statements := [
      ⟨1, .create (.index 0) .text⟩, ⟨1, .set (.index 0) (.slot ⟨.var, .index 0, true⟩)⟩,
      ⟨2, .echo (some 0) [.slotUnchecked (Reference.own (.index 0))]⟩,
      ⟨3, .create (.index 1) .static⟩, ⟨3, .set (.index 1) (.slot (Reference.own (.index 0)))⟩] }
  have hfirst : p.run ["7"] = .error ⟨.typeMismatch .static .text, some 3⟩ := by decide +kernel
  refine ⟨p, rfl, hfirst, ?_⟩
  rcases p.run_arguments_contents (show ["7"].length = ["x"].length from rfl) with
    ⟨printed, other, hok, -⟩ | ⟨e, herror, hsecond⟩
  · simp [hfirst] at hok
  · rwa [← Except.error.inj (hfirst.symm.trans herror)] at hsecond

end Program

end ColonScript
