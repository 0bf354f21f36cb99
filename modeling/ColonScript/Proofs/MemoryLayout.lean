import Mathlib
import ColonScript.Proofs.Basic
import ColonScript.Store.Memory

/-!
# Stores in memory

A store is laid out in memory by `Memory.ofStore`: its scopes from the outside in, its arguments as
slots, and its depth as a counter.  An operation on the memory of a store does what the operation
on the store does.  It never looks for a scope that is not there; it leaves the memory of the store
that comes next, and where the store reports a fault it reports the same fault and leaves the
memory as it was (`Memory.reply`).

There is one such lemma for each operation, and so the memory after any calls is the memory of the
store after these calls (`Memory.run_new`).
-/

namespace ColonScript

namespace Store

/-! ### Calls on a store -/

/-- A call that changes a store. -/
inductive Call where
  | create (id : SlotId) (type : TypeTag)
  | set (id : SlotId) (value : Value)
  | enter
  | leave
  | write (id : SlotId) (type : TypeTag) (value : Value)
deriving DecidableEq, Repr

/-- Whether a call is subject to the checks of the store. -/
def Call.isChecked : Call → Bool
  | write _ _ _ => false
  | create _ _ | set _ _ | enter | leave => true

/-- The result of a call. -/
def perform (s : Store) : Call → Except Fault Store
  | .create id type => s.create id type
  | .set id value => s.set id value
  | .enter => s.enter
  | .leave => s.leave
  | .write id type value => .ok (s.write id type value)

/-- The store after a call; a call that fails gives none, so the old one stays. -/
def after (s : Store) (c : Call) : Store :=
  match s.perform c with
  | .ok next => next
  | .error _ => s

/-- The store after some calls. -/
def run (s : Store) (calls : List Call) : Store :=
  calls.foldl after s

/-- A store without variables. -/
def fresh (maxDepth : ℕ) (arguments : List String) : Store where
  arguments := arguments
  maxDepth := maxDepth

/-- The scopes of a store from the inside out. -/
def scopes (s : Store) : List Scope :=
  s.scope :: s.outer

end Store

namespace Memory

/-! ### Calls on a memory -/

/-- Carries out a call in memory. -/
def perform : Store.Call → Action Unit
  | .create id type => createSlot id type
  | .set id value => setSlot id value
  | .enter => enter
  | .leave => leave
  | .write id type value => writeSlot id type value

/-- The memory that an operation leaves behind, whether it succeeds or stops early. -/
def leftBy {α : Type} (m : Memory) (action : Action α) : Memory :=
  match action.run m with
  | .ok _ next => next
  | .error _ next => next

/-- The memory that some calls leave behind. -/
def run (m : Memory) (calls : List Store.Call) : Memory :=
  calls.foldl (fun m c => m.leftBy (perform c)) m

/-! ### The memory of a store -/

/-- The memory that holds a store. -/
def ofStore (s : Store) : Memory where
  scopes := s.scopes.reverse.toArray
  arguments := s.arguments.map .ofText
  depth := s.depth
  maxDepth := s.maxDepth

/-- What an operation on the memory of a store gives where the operation on the store has the
given answer: the same result with the memory of the next store, or the same fault with the memory
as it was. -/
def reply {α : Type} (s : Store) : Except Fault (α × Store) → EStateM.Result Halt Memory α
  | .ok (a, next) => .ok a (ofStore next)
  | .error fault => .error (.fault fault) (ofStore s)

variable (s : Store)

lemma depth_ofStore : (ofStore s).depth = s.depth := rfl

/-- The innermost scope is where the counter says. -/
lemma run_scopeAt_depth : (scopeAt s.depth).run (ofStore s) = .ok s.scope (ofStore s) := by
  have hscope : (ofStore s).scopes[s.depth]? = some s.scope := by
    simp [ofStore, Store.scopes, Store.depth]
  simp [scopeAt, hscope]

/-- The scope around the innermost one is one place before it. -/
lemma run_scopeAt_parent {scope : Scope} {outer : List Scope} (houter : s.outer = scope :: outer) :
    (scopeAt outer.length).run (ofStore s) = .ok scope (ofStore s) := by
  have hscope : (ofStore s).scopes[outer.length]? = some scope := by
    simp [ofStore, Store.scopes, houter]
  simp [scopeAt, hscope]

/-- A variable that is put into the innermost scope changes no other scope. -/
lemma run_insertAt_depth (n : UInt64) (slot : Slot) :
    (insertAt s.depth n slot).run (ofStore s) = .ok () (ofStore (s.put n slot)) := by
  rw [insertAt, EStateM.run_bind, run_scopeAt_depth]
  simp [ofStore, Store.scopes, Store.depth, Store.put]

/-! ### Operations -/

lemma run_enter : enter.run (ofStore s) = reply s (s.enter.map ((), ·)) := by
  by_cases hdepth : s.maxDepth ≤ s.outer.length
  · simp [enter, Store.enter, ofStore, Store.depth, hdepth, reply, Except.map]
  · simp [enter, Store.enter, ofStore, Store.depth, hdepth, reply, Except.map, Store.scopes]

lemma run_leave : leave.run (ofStore s) = reply s (s.leave.map ((), ·)) := by
  cases houter : s.outer with
  | nil => simp [leave, Store.leave, houter, ofStore, Store.depth, reply, Except.map]
  | cons scope outer =>
    simp [leave, Store.leave, houter, ofStore, Store.depth, Store.scopes, reply, Except.map]

lemma run_createSlot (id : SlotId) (type : TypeTag) :
    (createSlot id type).run (ofStore s) = reply s ((s.create id type).map ((), ·)) := by
  cases id with
  | argCount => rfl
  | index n =>
    simp only [createSlot, Store.create, EStateM.run_bind, EStateM.run_get, depth_ofStore,
      run_scopeAt_depth]
    by_cases hbefore : n = 0 ∨ s.scope.vars.contains (n - 1)
    · rw [if_neg (by tauto), if_pos hbefore, run_insertAt_depth]
      rfl
    · rw [if_pos (by tauto), if_neg hbefore]
      rfl

lemma run_setSlot (id : SlotId) (value : Value) :
    (setSlot id value).run (ofStore s) = reply s ((s.set id value).map ((), ·)) := by
  cases id with
  | argCount => rfl
  | index n =>
    simp only [setSlot, Store.set, EStateM.run_bind, EStateM.run_get, depth_ofStore,
      run_scopeAt_depth]
    cases s.scope.vars.get? n with
    | none => rfl
    | some slot =>
      by_cases htag : value.tag = .null ∨ value.tag = slot.type
      · dsimp only
        rw [if_neg (by tauto), if_pos htag, run_insertAt_depth]
        rfl
      · dsimp only
        rw [if_pos (by tauto), if_neg htag]
        rfl

lemma run_writeSlot (id : SlotId) (type : TypeTag) (value : Value) :
    (writeSlot id type value).run (ofStore s) = .ok () (ofStore (s.write id type value)) := by
  cases id with
  | argCount => simp [writeSlot, Store.write]
  | index n => simp [writeSlot, Store.write, depth_ofStore, run_insertAt_depth]

/-- A place is looked up at the depth that a store looks it up at. -/
lemma lookupPlace_ofStore (parent : Bool) :
    (ofStore s).lookupPlace parent = s.lookupDepth parent := by
  cases parent with
  | false => rfl
  | true =>
    cases houter : s.outer <;>
      simp [lookupPlace, Store.lookupDepth, ofStore, Store.depth, houter]

/-- The slot that a reference refers to is looked up where the store looks it up. -/
lemma run_getSlot (r : Reference) :
    (getSlot r).run (ofStore s) = reply s ((s.get r).map (·, s)) := by
  obtain ⟨sigil, id, parent⟩ := r
  cases id with
  | argCount =>
    simp only [getSlot, EStateM.run_bind, EStateM.run_get, EStateM.run_pure]
    simp [Store.get, argumentCount, Store.argumentCount, ofStore, reply, Except.map]
  | index n =>
    simp only [getSlot, Store.get, EStateM.run_bind, EStateM.run_get, lookupPlace_ofStore]
    cases parent with
    | false =>
      simp only [Store.lookupDepth, Store.slot?, EStateM.run_bind, run_scopeAt_depth]
      cases (s.scope.table sigil).get? n <;> rfl
    | true =>
      cases houter : s.outer with
      | nil =>
        have hargument : (ofStore s).arguments[n.toNat]? = s.argument? n := by
          simp [ofStore, Store.argument?]
        simp only [Store.lookupDepth, Store.slot?, houter, hargument]
        cases s.argument? n <;> rfl
      | cons scope outer =>
        simp only [Store.lookupDepth, Store.slot?, houter, EStateM.run_bind,
          run_scopeAt_parent s houter]
        cases (scope.table sigil).get? n <;> rfl

lemma run_readSlot (r : Reference) :
    (readSlot r).run (ofStore s) = .ok (s.read r) (ofStore s) := by
  simp only [readSlot, Store.read, EStateM.run_tryCatch, EStateM.run_map, run_getSlot]
  cases s.get r <;> rfl

/-- A call on the memory of a store does what it does on the store. -/
lemma run_perform (c : Store.Call) :
    (perform c).run (ofStore s) = reply s ((s.perform c).map ((), ·)) := by
  cases c with
  | create id type => exact run_createSlot s id type
  | set id value => exact run_setSlot s id value
  | enter => exact run_enter s
  | leave => exact run_leave s
  | write id type value => exact run_writeSlot s id type value

/-! ### Sequences of calls -/

/-- A call leaves the memory of the store after the call. -/
lemma leftBy_perform (c : Store.Call) : (ofStore s).leftBy (perform c) = ofStore (s.after c) := by
  rw [leftBy, run_perform, Store.after]
  cases s.perform c <;> rfl

/-- Calls leave the memory of the store after these calls. -/
lemma run_ofStore (calls : List Store.Call) : (ofStore s).run calls = ofStore (s.run calls) := by
  induction calls generalizing s with
  | nil => rfl
  | cons c more ih =>
    rw [run, List.foldl_cons, leftBy_perform]
    exact ih (s.after c)

/-- The memory after any calls holds the store after these calls. -/
lemma run_new (maxDepth : ℕ) (arguments : List String) (calls : List Store.Call) :
    (new maxDepth arguments).run calls = ofStore ((Store.fresh maxDepth arguments).run calls) :=
  run_ofStore (.fresh maxDepth arguments) calls

end Memory

end ColonScript
