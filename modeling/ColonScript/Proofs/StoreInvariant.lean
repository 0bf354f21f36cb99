import ColonScript.Proofs.MemoryLayout

/-!
# Stores under any sequence of calls

A store is changed by five calls: `create`, `set`, `enter`, `leave` and the unchecked `write`.
This file says what holds of a store, and of the memory that holds it, after any sequence of them,
failed calls included.

What a single call can do is said once, by `Store.Change`: nothing, a slot put into the innermost
scope, a scope opened, or a scope dropped.  Every invariant is kept by each of these changes, and
so by every sequence of calls (`run_induction`).

* `Store.Framed` holds after all calls: the depth stays within its limit, the limit and the
  program arguments stay as they were, and no function is ever defined.
* `Scope.Orderly` holds of every scope if no call is a `write`: the variables are numbered
  without a gap, and each holds null or a value of its type.

The memory after some calls is that of the store after them.  So its counter and its array of
scopes stay in step, although they are changed one after the other, every scope that is looked for
is there, and a call that fails leaves it as it was (`Memory.Sound`, `Memory.invariant_run`).
-/

namespace ColonScript

namespace Store

/-- What every call keeps is kept by all of them. -/
lemma run_induction {P : Store → Prop} {s : Store} {calls : List Call} (hstart : P s)
    (hafter : ∀ s, ∀ c ∈ calls, P s → P (s.after c)) : P (s.run calls) := by
  induction calls generalizing s with
  | nil => exact hstart
  | cons c more ih =>
    have hfirst : P (s.after c) := hafter s c (by simp) hstart
    exact ih hfirst fun s' c' hc' => hafter s' c' (List.mem_cons_of_mem _ hc')

end Store

/-! ### What a call can do -/

/-- A slot that holds null or a value of its type. -/
def Slot.WellTyped (slot : Slot) : Prop :=
  slot.value = .null ∨ slot.value.tag = slot.type

namespace Store

/-- A variable that may be put without leaving a gap: it is there, or it is the first one, or the
one before it is there. -/
def Fits (s : Store) (n : UInt64) : Prop :=
  s.scope.vars.contains n = true ∨ n = 0 ∨ s.scope.vars.contains (n - 1) = true

/-- The stores that a call can lead to. -/
inductive Change (checked : Bool) (s : Store) : Store → Prop
  | none : Change checked s s
  | put {n : UInt64} {slot : Slot} (hfits : checked = true → s.Fits n)
      (htyped : checked = true → slot.WellTyped) : Change checked s (s.put n slot)
  | opened (hdepth : s.depth < s.maxDepth) :
      Change checked s { s with scope := {}, outer := s.scope :: s.outer }
  | dropped {scope : Scope} {outer : List Scope} (houter : s.outer = scope :: outer) :
      Change checked s { s with scope := scope, outer := outer }

/-- A successful call is one of these changes. -/
lemma change_of_perform {s next : Store} {c : Call} (h : s.perform c = .ok next) :
    Change c.isChecked s next := by
  cases c with
  | create id type =>
    cases id with
    | argCount => simp [perform, create] at h
    | index n =>
      simp only [perform, create] at h
      split_ifs at h with hbefore
      obtain rfl := Except.ok.inj h
      exact .put (fun _ => .inr hbefore) fun _ => .inl rfl
  | set id value =>
    cases id with
    | argCount => simp [perform, set] at h
    | index n =>
      simp only [perform, set] at h
      split at h
      · simp at h
      · next slot hslot =>
        split_ifs at h with htag
        obtain rfl := Except.ok.inj h
        have hthere : s.scope.vars.contains n = true := by simp [Table.contains, hslot]
        refine .put (fun _ => .inl hthere) fun _ => htag.imp_left fun hnull => ?_
        cases value <;> simp_all [Value.tag]
  | enter =>
    simp only [perform, enter] at h
    split_ifs at h with hdepth
    obtain rfl := Except.ok.inj h
    exact .opened (Nat.lt_of_not_le hdepth)
  | leave =>
    simp only [perform, leave] at h
    split at h
    · simp at h
    · next scope outer houter =>
      obtain rfl := Except.ok.inj h
      exact .dropped houter
  | write id type value =>
    obtain rfl := Except.ok.inj h
    cases id with
    | argCount => exact .none
    | index n => exact .put (by simp [Call.isChecked]) (by simp [Call.isChecked])

/-- A call, successful or not, is one of these changes. -/
lemma change_after (s : Store) (c : Call) : Change c.isChecked s (s.after c) := by
  unfold after
  split
  · next next hnext => exact change_of_perform hnext
  · exact .none

/-! ### What every call keeps -/

/-- What holds of a store that was made with a limit and some arguments, whatever calls have been
made since. -/
structure Framed (maxDepth : ℕ) (arguments : List String) (s : Store) : Prop where
  depth_le : s.depth ≤ maxDepth
  maxDepth_eq : s.maxDepth = maxDepth
  arguments_eq : s.arguments = arguments
  fns_eq : ∀ scope ∈ s.scopes, scope.fns = {}

variable {maxDepth : ℕ} {arguments : List String} {s next : Store}

lemma framed_fresh (maxDepth : ℕ) (arguments : List String) :
    Framed maxDepth arguments (fresh maxDepth arguments) :=
  ⟨Nat.zero_le _, rfl, rfl, by simp [scopes, fresh]⟩

/-- Every change keeps the frame of a store. -/
lemma Framed.change {checked : Bool} (h : Framed maxDepth arguments s)
    (hchange : Change checked s next) : Framed maxDepth arguments next := by
  obtain ⟨hdepth, hmax, hargs, hfns⟩ := h
  obtain ⟨hinner, houter⟩ := List.forall_mem_cons.1 hfns
  cases hchange with
  | none => exact ⟨hdepth, hmax, hargs, hfns⟩
  | put => exact ⟨hdepth, hmax, hargs, List.forall_mem_cons.2 ⟨hinner, houter⟩⟩
  | opened hroom =>
    rw [hmax] at hroom
    exact ⟨hroom, hmax, hargs, List.forall_mem_cons.2 ⟨rfl, hfns⟩⟩
  | @dropped scope outer hsplit =>
    rw [hsplit] at houter
    have hlength : outer.length + 1 ≤ maxDepth := by simpa [depth, hsplit] using hdepth
    exact ⟨Nat.le_of_succ_le hlength, hmax, hargs, houter⟩

/-- Every sequence of calls keeps the frame of a store. -/
lemma framed_run (maxDepth : ℕ) (arguments : List String) (calls : List Call) :
    Framed maxDepth arguments ((fresh maxDepth arguments).run calls) :=
  run_induction (framed_fresh maxDepth arguments) fun s c _ h => h.change (s.change_after c)

/-- No table of functions has a slot. -/
lemma Framed.slot?_fn (h : Framed maxDepth arguments s) {r : Reference} (hfn : r.sigil = .fn)
    (hinner : r.parent = false ∨ s.depth ≠ 0) (n : UInt64) : s.slot? r n = none := by
  obtain ⟨hscope, houter⟩ := List.forall_mem_cons.1 h.fns_eq
  have hempty {scope : Scope} (hfns : scope.fns = {}) : (scope.table r.sigil).get? n = none := by
    simp [hfn, Scope.table, hfns, Table.get?]
  obtain ⟨sigil, id, parent⟩ := r
  cases parent with
  | false => exact hempty hscope
  | true =>
    cases hsplit : s.outer with
    | nil => simp [depth, hsplit] at hinner
    | cons scope outer =>
      simp only [slot?, hsplit]
      exact hempty (houter scope (by simp [hsplit]))

/-- Functions cannot be read, except that at the outermost depth the parent of a function is a
program argument. -/
lemma Framed.get_fn (h : Framed maxDepth arguments s) {r : Reference} {n : UInt64}
    (hfn : r.sigil = .fn) (hid : r.id = .index n) (hinner : r.parent = false ∨ s.depth ≠ 0) :
    s.get r = .error (.undefined (String.ofList r.nameChars) (s.lookupDepth r.parent)) := by
  simp only [get, hid, h.slot?_fn hfn hinner]

/-- A number that is cut off at the greatest integer. -/
lemma toInt_ofIntClamp_natCast (n : ℕ) :
    (Int64.ofIntClamp n).toInt = min (n : ℤ) Int64.maxValue.toInt := by
  have hlow : Int64.minValue.toInt ≤ (n : ℤ) := by
    have hmin : Int64.minValue.toInt ≤ 0 := by decide
    omega
  rcases le_total (n : ℤ) Int64.maxValue.toInt with hle | hge
  · rw [Int64.toInt_ofIntClamp hlow hle, min_eq_left hle]
  · rw [min_eq_right hge, Int64.ofIntClamp, dif_pos hlow]
    split_ifs with hhigh
    · rw [Int64.toInt_ofIntLE]
      exact le_antisymm hhigh hge
    · rfl

/-- The argument count is read as the number of program arguments. -/
lemma Framed.get_argCount (h : Framed maxDepth arguments s) {r : Reference}
    (hid : r.id = .argCount) :
    ∃ n : Int64, s.get r = .ok ⟨.static, .static n⟩ ∧
      n.toInt = min (arguments.length : ℤ) Int64.maxValue.toInt := by
  refine ⟨Int64.ofIntClamp arguments.length, ?_, toInt_ofIntClamp_natCast _⟩
  simp only [get, hid, argumentCount, h.arguments_eq]

end Store

/-! ### What checked calls keep -/

/-- A scope whose variables are numbered without a gap and hold null or values of their types. -/
structure Scope.Orderly (scope : Scope) : Prop where
  contiguous : ∃ count : ℕ, ∀ n : UInt64, scope.vars.contains n = true ↔ n.toNat < count
  wellTyped : ∀ n slot, scope.vars.get? n = some slot → slot.WellTyped

/-- A slot with a type that no value has holds null. -/
lemma Slot.WellTyped.eq_null {slot : Slot} (h : slot.WellTyped)
    (htype : slot.type ∈ [TypeTag.fn, .list, .dict, .obj]) : slot.value = .null := by
  refine h.resolve_right fun htag => ?_
  rw [← htag] at htype
  cases hvalue : slot.value <;> simp [hvalue, Value.tag] at htype

namespace Scope

/-- The number before a number that is not zero. -/
lemma toNat_sub_one {n : UInt64} (hn : n ≠ 0) : (n - 1).toNat + 1 = n.toNat := by
  have hpos : n.toNat ≠ 0 := fun hzero => hn (UInt64.toNat_inj.1 hzero)
  have hone : (1 : UInt64).toNat = 1 := rfl
  have hle : 1 ≤ n := UInt64.le_iff_toNat_le.2 (Nat.pos_of_ne_zero hpos)
  rw [UInt64.toNat_sub_of_le _ _ hle]
  omega

/-- A scope without variables is orderly. -/
lemma orderly_empty : Orderly {} :=
  ⟨⟨0, by simp [Table.contains, Table.get?]⟩, by simp [Table.get?]⟩

/-- Putting a variable that leaves no gap, with a value of its type, keeps a scope orderly. -/
lemma Orderly.insert {scope : Scope} (h : scope.Orderly) {n : UInt64} {slot : Slot}
    (hfits : scope.vars.contains n = true ∨ n = 0 ∨ scope.vars.contains (n - 1) = true)
    (htyped : slot.WellTyped) : Orderly { scope with vars := scope.vars.insert n slot } := by
  obtain ⟨⟨count, hcount⟩, hslots⟩ := h
  constructor
  · simp only [Table.contains_insert, hcount] at hfits ⊢
    by_cases hthere : n.toNat < count
    · -- a variable declared again
      refine ⟨count, fun m => ⟨?_, .inr⟩⟩
      rintro (rfl | hm)
      · exact hthere
      · exact hm
    · -- the next variable
      have hnext : n.toNat = count := by
        have hzero : (0 : UInt64).toNat = 0 := rfl
        by_cases hn : n = 0
        · subst hn
          omega
        · have hpred := toNat_sub_one hn
          have hbefore := (hfits.resolve_left hthere).resolve_left hn
          omega
      refine ⟨count + 1, fun m => ?_⟩
      rw [← UInt64.toNat_inj]
      omega
  · intro m other hother
    rw [Table.get?_insert] at hother
    split_ifs at hother with hsame
    · obtain rfl := Option.some.inj hother
      exact htyped
    · exact hslots m other hother

end Scope

namespace Store

variable {s next : Store}

/-- A change by a checked call keeps all scopes orderly. -/
lemma Change.orderly (hchange : Change true s next) (h : ∀ scope ∈ s.scopes, scope.Orderly) :
    ∀ scope ∈ next.scopes, scope.Orderly := by
  obtain ⟨hinner, houter⟩ := List.forall_mem_cons.1 h
  cases hchange with
  | none => exact h
  | put hfits htyped =>
    exact List.forall_mem_cons.2 ⟨hinner.insert (hfits rfl) (htyped rfl), houter⟩
  | opened => exact List.forall_mem_cons.2 ⟨Scope.orderly_empty, h⟩
  | dropped hsplit =>
    rw [hsplit] at houter
    exact houter

/-- Checked calls keep all scopes orderly. -/
lemma orderly_run {maxDepth : ℕ} {arguments : List String} {calls : List Call}
    (hchecked : ∀ c ∈ calls, c.isChecked = true) :
    ∀ scope ∈ ((fresh maxDepth arguments).run calls).scopes, scope.Orderly := by
  refine run_induction (P := fun s => ∀ scope ∈ s.scopes, scope.Orderly) ?_ fun s c hc h => ?_
  · simpa [scopes, fresh] using Scope.orderly_empty
  · have hchange := s.change_after c
    rw [hchecked c hc] at hchange
    exact hchange.orderly h

end Store

/-! ### What holds of the memory -/

namespace Memory

/-- What holds of a memory that was made with a limit and some arguments, whatever calls have been
made since. -/
structure Sound (maxDepth : ℕ) (arguments : List String) (m : Memory) : Prop where
  /-- There is one scope for each depth up to the one that the counter shows. -/
  size_scopes : m.scopes.size = m.depth + 1
  depth_le : m.depth ≤ maxDepth
  maxDepth_eq : m.maxDepth = maxDepth
  arguments_eq : m.arguments = arguments.map .ofText
  fns_eq : ∀ scope ∈ m.scopes, scope.fns = {}
  /-- No function can be read, but at the outermost depth its parent is a program argument. -/
  getSlot_fn : ∀ r n, r.sigil = .fn → r.id = .index n → r.parent = false ∨ m.depth ≠ 0 →
    ∃ depth, (getSlot r).run m =
      .error (.fault (.undefined (String.ofList r.nameChars) depth)) m
  /-- The argument count is read as the number of program arguments. -/
  getSlot_argCount : ∀ r, r.id = .argCount →
    ∃ count : Int64, (getSlot r).run m = .ok ⟨.static, .static count⟩ m ∧
      count.toInt = min (arguments.length : ℤ) Int64.maxValue.toInt
  /-- A call stops early only with a fault, and then leaves everything as it was. -/
  perform_error : ∀ c halt next, (perform c).run m = .error halt next →
    next = m ∧ ∃ fault, halt = .fault fault
  /-- A reading stops early only with a fault, too. -/
  getSlot_error : ∀ r halt next, (getSlot r).run m = .error halt next →
    next = m ∧ ∃ fault, halt = .fault fault

variable {s : Store} {maxDepth : ℕ} {arguments : List String}

/-- The memory of a store has the scopes of the store. -/
lemma mem_scopes_ofStore {scope : Scope} : scope ∈ (ofStore s).scopes ↔ scope ∈ s.scopes := by
  simp [ofStore]

/-- The memory of a store replies to a fault of the store with the fault, and stays as it was. -/
lemma eq_of_reply_eq_error {α : Type} {answer : Except Fault (α × Store)} {halt : Halt}
    {next : Memory} (h : reply s answer = .error halt next) :
    next = ofStore s ∧ ∃ fault, halt = .fault fault := by
  cases answer with
  | ok result => simp [reply] at h
  | error fault =>
    rw [reply, EStateM.Result.error.injEq] at h
    exact ⟨h.2.symm, fault, h.1.symm⟩

/-- The memory of a store with a frame is sound. -/
lemma sound_ofStore (h : s.Framed maxDepth arguments) : (ofStore s).Sound maxDepth arguments where
  size_scopes := by simp [ofStore, Store.scopes, Store.depth]
  depth_le := h.depth_le
  maxDepth_eq := h.maxDepth_eq
  arguments_eq := congrArg (List.map Slot.ofText) h.arguments_eq
  fns_eq scope hscope := h.fns_eq scope (mem_scopes_ofStore.1 hscope)
  getSlot_fn r n hfn hid hinner := by
    rw [run_getSlot, h.get_fn hfn hid hinner]
    exact ⟨_, rfl⟩
  getSlot_argCount r hid := by
    obtain ⟨count, hget, hcount⟩ := h.get_argCount hid
    rw [run_getSlot, hget]
    exact ⟨count, rfl, hcount⟩
  perform_error c halt next hstop := eq_of_reply_eq_error ((run_perform s c).symm.trans hstop)
  getSlot_error r halt next hstop := eq_of_reply_eq_error ((run_getSlot s r).symm.trans hstop)

/-- What holds of a memory after any calls, whether they succeeded or failed.  There is one scope
for each depth up to the one that the counter shows, which is within the limit; the limit and the
program arguments are the ones given; no function is defined or can be read; the argument count can
be read; neither a call nor a reading looks for a scope that is not there, and one that fails
changes nothing.  If no call was an unchecked write, the variables of each scope are numbered without
a gap and hold null or values of their types, so that variables of the four types without values
hold null. -/
theorem invariant_run (maxDepth : ℕ) (arguments : List String) (calls : List Store.Call) :
    Sound maxDepth arguments ((new maxDepth arguments).run calls) ∧
    ((∀ c ∈ calls, c.isChecked = true) →
      ∀ scope ∈ ((new maxDepth arguments).run calls).scopes, scope.Orderly ∧
        ∀ n slot, scope.vars.get? n = some slot →
          slot.type ∈ [TypeTag.fn, .list, .dict, .obj] → slot.value = .null) := by
  rw [run_new]
  refine ⟨sound_ofStore (Store.framed_run maxDepth arguments calls), ?_⟩
  intro hchecked scope hscope
  have horderly := Store.orderly_run hchecked scope (mem_scopes_ofStore.1 hscope)
  exact ⟨horderly, fun n slot hslot htype => (horderly.wellTyped n slot hslot).eq_null htype⟩

end Memory

end ColonScript
