import ColonScript.Proofs.StoreInvariant

/-!
# A nested scope leaves no trace

Between entering a scope and leaving it again, anything may be done with the store: variables
may be declared, assigned, overwritten and read, further scopes may be entered and left, and any
of this may fail.  As long as the scope itself is not left, the memory comes back unchanged
(`Memory.leave_carryOut`).

The reason is that no operation changes a scope other than the innermost one.  `Store.Nested`
says that all scopes of one store lie around the innermost scope of another.  An operation keeps
this unless it leaves too many scopes (`Nested.change`), and so does a sequence of operations
(`Nested.carryOut`).  A memory that any operations have led to holds a store (`Memory.InStep`), and
so all this carries over to it.
-/

namespace ColonScript.Store

/-- An operation on a store: a call that may change it, or a reading of a reference. -/
inductive Operation where
  | call (c : Call)
  /-- Read a slot that must exist. -/
  | get (r : Reference)
  /-- Read a slot that counts as null if it does not exist. -/
  | read (r : Reference)
deriving DecidableEq, Repr

/-- The store after an operation, whether that succeeds or fails. -/
def next (s : Store) : Operation → Store
  | .call c => s.after c
  | .get _ | .read _ => s

/-- The store after some operations. -/
def carryOut (s : Store) (operations : List Operation) : Store :=
  operations.foldl next s

/-- A store in which all scopes of another store lie around the innermost one. -/
structure Nested (base s : Store) : Prop where
  scopes_isSuffix : base.scopes <:+ s.outer
  arguments_eq : s.arguments = base.arguments
  maxDepth_eq : s.maxDepth = base.maxDepth

variable {base s t : Store}

/-- A scope that has just been entered has all scopes around it. -/
lemma nested_of_enter (h : s.enter = .ok t) : Nested s t := by
  rw [enter] at h
  split_ifs at h
  obtain rfl := Except.ok.inj h
  exact ⟨List.suffix_rfl, rfl, rfl⟩

/-- There is one more scope than the depth says. -/
lemma length_scopes (s : Store) : s.scopes.length = s.depth + 1 := rfl

namespace Nested

/-- A change that does not leave the nested scope changes nothing around it. -/
lemma change {checked : Bool} (h : Nested base s) (hchange : Change checked s t)
    (hdepth : base.depth < t.depth) : Nested base t := by
  obtain ⟨hscopes, harguments, hmax⟩ := h
  cases hchange with
  | none => exact ⟨hscopes, harguments, hmax⟩
  | put => exact ⟨hscopes, harguments, hmax⟩
  | opened => exact ⟨hscopes.trans (List.suffix_cons _ _), harguments, hmax⟩
  | @dropped scope outer houter =>
    refine ⟨?_, harguments, hmax⟩
    rw [houter] at hscopes
    rcases List.suffix_cons_iff.1 hscopes with hall | hrest
    · -- then the scope that was dropped is one of those around
      have hlength := congrArg List.length hall
      rw [length_scopes, List.length_cons] at hlength
      have hshort : outer.length = base.depth := by omega
      exact absurd hdepth (by simp [depth, hshort])
    · exact hrest

/-- An operation that does not leave the nested scope changes nothing around it. -/
lemma next (h : Nested base s) (o : Operation) (hdepth : base.depth < (s.next o).depth) :
    Nested base (s.next o) := by
  cases o with
  | call c => exact h.change (s.change_after c) hdepth
  | get r => exact h
  | read r => exact h

/-- Operations that never leave the nested scope change nothing around it. -/
lemma carryOut (h : Nested base s) {operations : List Operation}
    (hdepth : ∀ first, first <+: operations → base.depth < (s.carryOut first).depth) :
    Nested base (s.carryOut operations) := by
  induction operations generalizing s with
  | nil => exact h
  | cons o rest ih =>
    have hfirst : base.depth < (s.next o).depth :=
      hdepth [o] (List.cons_prefix_cons.2 ⟨rfl, List.nil_prefix⟩)
    apply ih (h.next o hfirst)
    intro first hprefix
    exact hdepth (o :: first) (List.cons_prefix_cons.2 ⟨rfl, hprefix⟩)

/-- Leaving a scope that is nested in nothing else gives back the store around it. -/
lemma leave (h : Nested base s) (hdepth : s.depth = base.depth + 1) : s.leave = .ok base := by
  have houter : base.scopes = s.outer := h.scopes_isSuffix.eq_of_length hdepth.symm
  have hmax := h.maxDepth_eq
  have harguments := h.arguments_eq
  rw [Store.leave, ← houter]
  obtain ⟨scope, outer, arguments, maxDepth⟩ := base
  simp only at hmax harguments
  rw [hmax, harguments]
  rfl

end Nested

/-- A scope that is entered, and left after operations that never left it, leaves the store as it
was. -/
lemma leave_of_enter (henter : s.enter = .ok t) {operations : List Operation}
    (hdeep : ∀ first, first <+: operations → s.depth + 1 ≤ (t.carryOut first).depth)
    (hend : (t.carryOut operations).depth = s.depth + 1) :
    (t.carryOut operations).leave = .ok s :=
  ((nested_of_enter henter).carryOut hdeep).leave hend

end ColonScript.Store

namespace ColonScript.Memory

open Store (Operation)

/-! ### Operations in memory -/

/-- Carries out an operation in memory, without a use for what is read. -/
def carry : Operation → Action Unit
  | .call c => perform c
  | .get r => (fun _ => ()) <$> getSlot r
  | .read r => (fun _ => ()) <$> readSlot r

/-- The memory that some operations leave behind, whether they succeed or fail. -/
def carryOut (m : Memory) (operations : List Operation) : Memory :=
  operations.foldl (fun m o => m.leftBy (carry o)) m

/-- An operation leaves the memory of the store after the operation. -/
lemma leftBy_carry (s : Store) (o : Operation) :
    (ofStore s).leftBy (carry o) = ofStore (s.next o) := by
  cases o with
  | call c => exact leftBy_perform s c
  | get r =>
    rw [leftBy, carry, EStateM.run_map, run_getSlot]
    cases s.get r <;> rfl
  | read r =>
    rw [leftBy, carry, EStateM.run_map, run_readSlot]
    rfl

/-- Operations leave the memory of the store after these operations. -/
lemma carryOut_ofStore (s : Store) (operations : List Operation) :
    (ofStore s).carryOut operations = ofStore (s.carryOut operations) := by
  induction operations generalizing s with
  | nil => rfl
  | cons o rest ih =>
    rw [carryOut, List.foldl_cons, leftBy_carry]
    exact ih (s.next o)

/-- A memory whose counter is in step with its scopes and whose arguments are texts. -/
structure InStep (m : Memory) : Prop where
  size_scopes : m.scopes.size = m.depth + 1
  arguments_eq : ∃ texts : List String, m.arguments = texts.map .ofText

/-- Such a memory holds a store. -/
lemma inStep_iff {m : Memory} : m.InStep ↔ ∃ s, m = ofStore s := by
  constructor
  · rintro ⟨hsize, texts, harguments⟩
    obtain ⟨scope, outer, hscopes⟩ : ∃ scope outer, m.scopes.toList.reverse = scope :: outer := by
      apply List.exists_cons_of_length_pos
      simp [hsize]
    have hdepth : outer.length = m.depth := by
      have hlength := congrArg List.length hscopes
      simpa [hsize] using hlength.symm
    refine ⟨⟨scope, outer, texts, m.maxDepth⟩, ?_⟩
    obtain ⟨scopes, arguments, depth, maxDepth⟩ := m
    simp only at hscopes hdepth harguments
    simp [ofStore, Store.scopes, Store.depth, ← hscopes, hdepth, harguments]
  · rintro ⟨s, rfl⟩
    exact ⟨by simp [ofStore, Store.scopes, Store.depth], s.arguments, rfl⟩

/-- Nested scopes leave no trace.  Every memory that operations have led to is in step.  In such a
memory a scope can be entered below the greatest depth; and whatever operations follow, whether they
succeed or fail, if they never go back to the depth before and end at the depth of the new scope,
then leaving it succeeds and gives the memory from before: the same scopes with the same slots, the
same arguments and the same counter. -/
theorem leave_carryOut :
    (∀ (maxDepth : ℕ) (arguments : List String) (operations : List Operation),
      ((new maxDepth arguments).carryOut operations).InStep) ∧
    ∀ m : Memory, m.InStep → m.depth < m.maxDepth →
      ∃ inner, enter.run m = .ok () inner ∧ ∀ operations : List Operation,
        (∀ first, first <+: operations → m.depth + 1 ≤ (inner.carryOut first).depth) →
        (inner.carryOut operations).depth = m.depth + 1 →
        leave.run (inner.carryOut operations) = .ok () m := by
  constructor
  · intro maxDepth arguments operations
    exact inStep_iff.2 ⟨_, carryOut_ofStore (.fresh maxDepth arguments) operations⟩
  · intro m hstep hroom
    obtain ⟨s, rfl⟩ := inStep_iff.1 hstep
    have henter : s.enter = .ok { s with scope := {}, outer := s.scope :: s.outer } :=
      if_neg (Nat.not_le.2 hroom)
    refine ⟨ofStore _, by rw [run_enter, henter]; rfl, ?_⟩
    intro operations hdeep hend
    simp only [carryOut_ofStore] at hdeep hend ⊢
    rw [run_leave, Store.leave_of_enter henter hdeep hend]
    rfl

/-- The scope is nested in another one and has deeper scopes inside of it; a declaration and an
entry fail, and a variable of the parent is read. -/
theorem leave_carryOut_failures :
    ∃ m inner : Memory, ∃ operations : List Operation,
      m = ⟨#[{}, { vars := ⟨[(0, ⟨.static, .static 1⟩)]⟩ }], [.ofText "x"], 1, 3⟩ ∧
      operations = [.call (.create (.index 4) .text), .call .enter, .call .enter,
        .call (.write (.index 0) .text .null), .get ⟨.var, .index 0, true⟩, .call .leave,
        .call (.create (.index 0) .dynamic)] ∧
      m.InStep ∧ m.depth < m.maxDepth ∧ enter.run m = .ok () inner ∧
      (∀ first, first <+: operations → m.depth + 1 ≤ (inner.carryOut first).depth) ∧
      (inner.carryOut operations).depth = m.depth + 1 ∧
      leave.run (inner.carryOut operations) = .ok () m := by
  have hstep : (⟨#[{}, { vars := ⟨[(0, ⟨.static, .static 1⟩)]⟩ }], [.ofText "x"], 1, 3⟩ :
      Memory).InStep := ⟨rfl, ["x"], rfl⟩
  have hroom : 1 < 3 := by decide
  obtain ⟨inner, henter, hleave⟩ := leave_carryOut.2 _ hstep hroom
  obtain ⟨-, rfl⟩ := EStateM.Result.ok.inj henter
  refine ⟨_, _, _, rfl, rfl, hstep, hroom, henter, ?deep, ?back, hleave _ ?deep ?back⟩
  case deep =>
    intro first hfirst
    rw [← List.mem_inits] at hfirst
    revert first
    decide
  case back => decide

end ColonScript.Memory
