import ColonScript.Proofs.Lowering

/-!
# The constants of a program

The constants of a program are the literals and formats of its tree, each once and in the order
in which they first occur (`FirstOccurrences`).  A statement that mentions a constant mentions the
place of the literal or format that it was made from (`Tree.CarriedOut`).

Lowering a tree interns its literals one after the other (`Tree.lower_snd`).  A pool finds every
value that it has by its key, so interning keeps `FirstOccurrences` (`FirstOccurrences.intern`).
Which literals are interned does not depend on the mode, and the pool only grows at its end; so the
constants are the same in both modes, and those of a tree stay in place when the tree is continued.
-/

namespace ColonScript

/-! ### Literals of a tree -/

/-- The literal that an operand is. -/
def Operand.literal? : Operand → Option Value
  | literal v => some v
  | reference _ | reserved _ => none

/-- The literals of a node in their order.  A format counts as a text and comes before the
operands. -/
def Node.literals : Node → List Value
  | echo _ text operands => (text.map Value.text).toList ++ operands.filterMap Operand.literal?
  | define _ _ _ initial => (initial.bind Operand.literal?).toList
  | const _ v => [v]
  | format _ _ | store _ _ | passthrough _ => []

/-- The literals of a tree in their order. -/
def Tree.literals (tree : Tree) : List Value :=
  tree.flatMap Node.literals

/-- Whether two values are the same constant: they have the same type and the same content, where
numbers are compared by their bits. -/
def Value.Same : Value → Value → Prop
  | static m, static n => m = n
  | dynamic x, dynamic y => x.bits = y.bits
  | text s, text t => s = t
  | null, null => True
  | _, _ => False

/-- The same constant has the same key. -/
lemma Value.key_eq_of_same {v w : Value} (h : v.Same w) : v.key = w.key := by
  match v, w, h with
  | static _, static _, h => exact congrArg Pool.Key.static h
  | dynamic _, dynamic _, h => exact congrArg Pool.Key.dynamic h
  | text _, text _, h => exact congrArg Pool.Key.text h
  | null, null, _ => rfl

/-! ### First occurrences -/

namespace Pool

variable {pool : Pool} {v : Value}

/-- A value that the pool has is not listed again. -/
lemma intern_snd_of_mem (hv : v ∈ pool.values) : (pool.intern v).2 = pool := by
  unfold intern
  split
  · rfl
  · next hnone =>
    obtain ⟨i, hi⟩ := List.mem_iff_getElem?.1 hv
    rw [lookup_key_eq_some_iff.2 hi] at hnone
    simp at hnone

/-- A new value comes after all others. -/
lemma intern_snd_of_notMem (hv : v ∉ pool.values) :
    (pool.intern v).2.values = pool.values ++ [v] := by
  unfold intern
  split
  · next i hplace => exact absurd (List.mem_of_getElem? (lookup_key_eq_some_iff.1 hplace)) hv
  · rfl

end Pool

/-- A list of the distinct members of another one, in the order in which they first occur
there. -/
structure FirstOccurrences (distinct all : List Value) : Prop where
  mem_iff : ∀ v, v ∈ distinct ↔ v ∈ all
  ordered : distinct.Pairwise fun v w => all.idxOf v < all.idxOf w

namespace FirstOccurrences

variable {distinct all : List Value}

/-- No member is listed twice. -/
lemma nodup (h : FirstOccurrences distinct all) : distinct.Nodup :=
  h.ordered.imp fun hlt hsame => by simp [hsame] at hlt

/-- There is only one such list. -/
lemma unique {other : List Value} (h : FirstOccurrences distinct all)
    (hother : FirstOccurrences other all) : other = distinct := by
  have hperm : other.Perm distinct := by
    rw [List.perm_ext_iff_of_nodup hother.nodup h.nodup]
    intro v
    rw [hother.mem_iff, h.mem_iff]
  refine hperm.eq_of_pairwise (fun v w _ _ hvw hwv => ?_) hother.ordered h.ordered
  omega

/-- Interning a value lists it if it occurs for the first time. -/
lemma intern {pool : Pool} (h : FirstOccurrences pool.values all) (v : Value) :
    FirstOccurrences (pool.intern v).2.values (all ++ [v]) := by
  have hstays {w : Value} (hw : w ∈ pool.values) : (all ++ [v]).idxOf w = all.idxOf w :=
    List.idxOf_append_of_mem ((h.mem_iff w).1 hw)
  have hordered :
      pool.values.Pairwise fun u w => (all ++ [v]).idxOf u < (all ++ [v]).idxOf w := by
    refine h.ordered.imp_of_mem fun hu hw hlt => ?_
    rwa [hstays hu, hstays hw]
  by_cases hv : v ∈ pool.values
  · -- the pool has the value already
    rw [Pool.intern_snd_of_mem hv]
    refine ⟨fun w => ?_, hordered⟩
    rw [h.mem_iff, List.mem_append, List.mem_singleton]
    constructor
    · exact Or.inl
    · rintro (hw | rfl)
      · exact hw
      · exact (h.mem_iff w).1 hv
  · -- the value is new, so it comes after all others
    rw [Pool.intern_snd_of_notMem hv]
    have hout : v ∉ all := fun hmem => hv ((h.mem_iff v).2 hmem)
    have hlast : (all ++ [v]).idxOf v = all.length := by
      rw [List.idxOf_append_of_notMem hout, List.idxOf_cons_self]
      rfl
    refine ⟨fun w => by simp [h.mem_iff w], List.pairwise_append.2 ⟨hordered, by simp, ?_⟩⟩
    intro w hw u hu
    obtain rfl : u = v := by simpa using hu
    rw [hstays hw, hlast]
    exact List.idxOf_lt_length_of_mem ((h.mem_iff w).1 hw)

end FirstOccurrences

/-! ### Interning the literals of a tree -/

/-- The pool after some values have been interned. -/
def Pool.internAll (pool : Pool) (values : List Value) : Pool :=
  values.foldl (fun pool v => (pool.intern v).2) pool

/-- Interning values one after the other lists their first occurrences. -/
lemma FirstOccurrences.internAll {pool : Pool} {all : List Value}
    (h : FirstOccurrences pool.values all) (values : List Value) :
    FirstOccurrences (pool.internAll values).values (all ++ values) := by
  induction values generalizing pool all with
  | nil => simpa [Pool.internAll] using h
  | cons v rest ih =>
    have hrest := ih (h.intern v)
    rwa [List.append_assoc] at hrest

/-- An integer and the text that spells it are two constants, and so are the two zeros. -/
example :
    (Pool.empty.internAll
        [.static 1, .text "1", .dynamic ⟨0⟩, .static 1, .dynamic ⟨0x8000000000000000⟩]).values =
      [.static 1, .text "1", .dynamic ⟨0⟩, .dynamic ⟨0x8000000000000000⟩] := by
  decide

lemma Pool.internAll_append (pool : Pool) (first second : List Value) :
    pool.internAll (first ++ second) = (pool.internAll first).internAll second := by
  simp [internAll]

/-- Lowering an operand interns its literal. -/
lemma Operand.lower_snd (mode : Mode) (pool : Pool) (o : Operand) :
    (o.lower mode pool).2 = pool.internAll o.literal?.toList := by
  cases o with
  | reference r => cases mode <;> rfl
  | literal v => rfl
  | reserved r => rfl

/-- Lowering some operands interns their literals. -/
lemma Operand.lowerAll_snd (mode : Mode) (pool : Pool) (operands : List Operand) :
    (Operand.lowerAll mode pool operands).2 =
      pool.internAll (operands.filterMap Operand.literal?) := by
  induction operands generalizing pool with
  | nil => rfl
  | cons o rest ih =>
    rw [Operand.lowerAll, ih, o.lower_snd, ← Pool.internAll_append]
    cases hliteral : o.literal? with
    | none => rw [List.filterMap_cons_none hliteral]; rfl
    | some v => rw [List.filterMap_cons_some hliteral]; rfl

/-- Lowering a node interns its literals. -/
lemma Node.lower_snd (mode : Mode) (pool : Pool) (node : Node) :
    (node.lower mode pool).2 = pool.internAll node.literals := by
  cases node with
  | echo token text operands =>
    have hformat : (pool.internFormat text).2 =
        pool.internAll (text.map Value.text).toList := by
      cases text <;> rfl
    rw [Node.literals, Pool.internAll_append, ← hformat, ← Operand.lowerAll_snd mode]
    rfl
  | define token type target initial =>
    cases initial with
    | none => rfl
    | some o => exact o.lower_snd mode pool
  | const token v => rfl
  | format token text => rfl
  | store token text => rfl
  | passthrough token => rfl

/-- Lowering a tree interns its literals, whatever the mode. -/
lemma Tree.lower_snd (mode : Mode) (pool : Pool) (tree : Tree) :
    (Tree.lower mode pool tree).2 = pool.internAll tree.literals := by
  induction tree generalizing pool with
  | nil => rfl
  | cons node rest ih =>
    rw [Tree.lower, ih, node.lower_snd, ← Pool.internAll_append]
    rfl

/-- A tree is lowered one part after the other. -/
lemma Tree.lower_append (mode : Mode) (pool : Pool) (first second : Tree) :
    Tree.lower mode pool (first ++ second) =
      ((Tree.lower mode pool first).1 ++
          (Tree.lower mode (Tree.lower mode pool first).2 second).1,
        (Tree.lower mode (Tree.lower mode pool first).2 second).2) := by
  induction first generalizing pool with
  | nil => rfl
  | cons node rest ih => simp only [List.cons_append, Tree.lower, ih, List.append_assoc]

/-! ### What a place denotes -/

/-- A load that gets its value from where an operand has it.  The load of a literal is the place
of that very literal. -/
inductive Load.StandsFor (mode : Mode) (constants : List Value) : Operand → Load → Prop
  | literal {v : Value} {place : ℕ} (hplace : constants[place]? = some v) :
      StandsFor mode constants (.literal v) (.const place)
  | reserved (r : Reserved) : StandsFor mode constants (.reserved r) (.reserved r)
  | slot (hmode : mode = .checked) (r : Reference) :
      StandsFor mode constants (.reference r) (.slot r)
  | slotUnchecked (hmode : mode = .unchecked) (r : Reference) :
      StandsFor mode constants (.reference r) (.slotUnchecked r)

/-- The actions that carry out a node: its operands are loaded from where they stand, and its
format from the place of that very format. -/
inductive Node.CarriedOut (mode : Mode) (constants : List Value) : Node → List Action → Prop
  | echo {token : Token} {text : Option String} {place : Option ℕ} {operands : List Operand}
      {loads : List Load}
      (hformat : Option.Rel (fun s i => constants[i]? = some (Value.text s)) text place)
      (hloads : List.Forall₂ (Load.StandsFor mode constants) operands loads) :
      CarriedOut mode constants (.echo token text operands) [.echo place loads]
  | declare {token : Token} {type : TypeTag} {target : Reference} (hmode : mode = .checked) :
      CarriedOut mode constants (.define token type target none) [.create target.id type]
  | initialise {token : Token} {type : TypeTag} {target : Reference} {initial : Operand}
      {value : Load} (hmode : mode = .checked)
      (hvalue : Load.StandsFor mode constants initial value) :
      CarriedOut mode constants (.define token type target (some initial))
        [.create target.id type, .set target.id value]
  | overwrite {token : Token} {type : TypeTag} {target : Reference} {initial : Option Operand}
      {value : Option Load} (hmode : mode = .unchecked)
      (hvalue : Option.Rel (Load.StandsFor mode constants) initial value) :
      CarriedOut mode constants (.define token type target initial)
        [.write target.id type value]
  | const {token : Token} {v : Value} (hv : v ∈ constants) :
      CarriedOut mode constants (.const token v) []
  | format {token : Token} {text : String} : CarriedOut mode constants (.format token text) []
  | store {token : Token} {text : String} : CarriedOut mode constants (.store token text) []
  | passthrough {token : Token} : CarriedOut mode constants (.passthrough token) []

/-- The statements that carry out a tree: those of its nodes one after the other, each on the line
of its node. -/
inductive Tree.CarriedOut (mode : Mode) (constants : List Value) : Tree → List Statement → Prop
  | nil : CarriedOut mode constants [] []
  | cons {node : Node} {rest : Tree} {actions : List Action} {more : List Statement}
      (hnode : node.CarriedOut mode constants actions)
      (hrest : CarriedOut mode constants rest more) :
      CarriedOut mode constants (node :: rest) (actions.map (⟨node.line, ·⟩) ++ more)

/-- The places of constants that a load mentions. -/
def Load.places : Load → List ℕ
  | const place => [place]
  | reserved _ | slot _ | slotUnchecked _ => []

/-- The places of constants that an action mentions. -/
def Action.places : Action → List ℕ
  | create _ _ => []
  | set _ value => value.places
  | write _ _ value => value.toList.flatMap Load.places
  | echo format values => format.toList ++ values.flatMap Load.places

section Lowered

variable {mode : Mode} {pool : Pool} {constants : List Value}

/-- The place of an interned value holds it in every list that continues the pool. -/
lemma Pool.getElem?_of_isPrefix {v : Value} (h : (pool.intern v).2.values <+: constants) :
    constants[(pool.intern v).1]? = some v := by
  obtain ⟨more, rfl⟩ := h
  have hplace := pool.getElem?_intern v
  obtain ⟨hlt, -⟩ := List.getElem?_eq_some_iff.1 hplace
  rw [List.getElem?_append_left hlt, hplace]

/-- The load of an operand stands for it. -/
lemma Operand.standsFor_lower {o : Operand} (h : (o.lower mode pool).2.values <+: constants) :
    Load.StandsFor mode constants o (o.lower mode pool).1 := by
  cases o with
  | reference r =>
    cases mode with
    | checked => exact .slot rfl r
    | unchecked => exact .slotUnchecked rfl r
  | literal v => exact .literal (Pool.getElem?_of_isPrefix h)
  | reserved r => exact .reserved r

/-- The loads of some operands stand for them. -/
lemma Operand.forall₂_lowerAll {operands : List Operand}
    (h : (Operand.lowerAll mode pool operands).2.values <+: constants) :
    List.Forall₂ (Load.StandsFor mode constants) operands
      (Operand.lowerAll mode pool operands).1 := by
  induction operands generalizing pool with
  | nil => exact .nil
  | cons o rest ih =>
    have hfirst : (o.lower mode pool).2.values <+: constants :=
      (Operand.isPrefix_lowerAll mode (o.lower mode pool).2 rest).trans h
    exact .cons (Operand.standsFor_lower hfirst) (ih h)

/-- The actions of a node carry it out. -/
lemma Node.carriedOut_lower {node : Node} (h : (node.lower mode pool).2.values <+: constants) :
    node.CarriedOut mode constants (node.lower mode pool).1 := by
  cases node with
  | echo token text operands =>
    have hformat : (pool.internFormat text).2.values <+: constants :=
      (Operand.isPrefix_lowerAll mode _ operands).trans h
    refine .echo ?_ (Operand.forall₂_lowerAll h)
    cases text with
    | none => exact .none
    | some s => exact .some (Pool.getElem?_of_isPrefix hformat)
  | define token type target initial =>
    cases initial with
    | none =>
      cases mode with
      | checked => exact .declare rfl
      | unchecked => exact .overwrite rfl .none
    | some o =>
      have hload : Load.StandsFor mode constants o (o.lower mode pool).1 :=
        Operand.standsFor_lower h
      cases mode with
      | checked => exact .initialise rfl hload
      | unchecked => exact .overwrite rfl (.some hload)
  | const token v => exact .const (List.mem_of_getElem? (Pool.getElem?_of_isPrefix h))
  | format token text => exact .format
  | store token text => exact .store
  | passthrough token => exact .passthrough

/-- The statements of a tree carry it out. -/
lemma Tree.carriedOut_lower {tree : Tree} (h : (Tree.lower mode pool tree).2.values <+: constants) :
    tree.CarriedOut mode constants (Tree.lower mode pool tree).1 := by
  induction tree generalizing pool with
  | nil => exact .nil
  | cons node rest ih =>
    have hnode : (node.lower mode pool).2.values <+: constants :=
      (Tree.isPrefix_lower mode (node.lower mode pool).2 rest).trans h
    exact .cons (Node.carriedOut_lower hnode) (ih h)

/-- A load that stands for an operand mentions only places of constants. -/
lemma Load.StandsFor.lt_length {o : Operand} {l : Load} (h : Load.StandsFor mode constants o l) :
    ∀ i ∈ l.places, i < constants.length := by
  intro i hi
  cases h with
  | literal hplace =>
    obtain rfl := List.mem_singleton.1 hi
    exact (List.getElem?_eq_some_iff.1 hplace).1
  | reserved r => simp [Load.places] at hi
  | slot hmode r => simp [Load.places] at hi
  | slotUnchecked hmode r => simp [Load.places] at hi

/-- Loads that stand for operands mention only places of constants. -/
lemma Load.lt_length_of_forall₂ {operands : List Operand} {loads : List Load}
    (h : List.Forall₂ (Load.StandsFor mode constants) operands loads) :
    ∀ i ∈ loads.flatMap Load.places, i < constants.length := by
  induction h with
  | nil => simp
  | cons hfirst _ ih =>
    intro i hi
    rw [List.flatMap_cons, List.mem_append] at hi
    exact hi.elim (hfirst.lt_length i) (ih i)

/-- The actions of a node mention only places of constants. -/
lemma Node.CarriedOut.lt_length {node : Node} {actions : List Action}
    (h : node.CarriedOut mode constants actions) :
    ∀ a ∈ actions, ∀ i ∈ a.places, i < constants.length := by
  intro a ha i hi
  cases h with
  | echo hformat hloads =>
    obtain rfl := List.mem_singleton.1 ha
    rcases List.mem_append.1 hi with hplace | hload
    · cases hformat with
      | none => simp at hplace
      | some htext =>
        obtain rfl := List.mem_singleton.1 hplace
        exact (List.getElem?_eq_some_iff.1 htext).1
    · exact Load.lt_length_of_forall₂ hloads i hload
  | declare hmode =>
    obtain rfl := List.mem_singleton.1 ha
    simp [Action.places] at hi
  | initialise hmode hvalue =>
    rcases List.mem_pair.1 ha with rfl | rfl
    · simp [Action.places] at hi
    · exact hvalue.lt_length i hi
  | overwrite hmode hvalue =>
    obtain rfl := List.mem_singleton.1 ha
    cases hvalue with
    | none => simp [Action.places] at hi
    | some hload => exact hload.lt_length i (by simpa [Action.places] using hi)
  | const hv => simp at ha
  | format => simp at ha
  | store => simp at ha
  | passthrough => simp at ha

/-- The statements of a tree mention only places of constants. -/
lemma Tree.CarriedOut.lt_length {tree : Tree} {statements : List Statement}
    (h : tree.CarriedOut mode constants statements) :
    ∀ s ∈ statements, ∀ i ∈ s.action.places, i < constants.length := by
  induction h with
  | nil => simp
  | cons hnode _ ih =>
    intro s hs
    rcases List.mem_append.1 hs with hfirst | hlater
    · obtain ⟨a, ha, rfl⟩ := List.mem_map.1 hfirst
      exact hnode.lt_length a ha
    · exact ih s hlater

end Lowered

namespace Program

/-- The constants of a program are the literals of its tree. -/
lemma constants_ofTree (tree : Tree) (settings : Settings) :
    (ofTree tree settings).constants = (Pool.empty.internAll tree.literals).values :=
  congrArg Pool.values (Tree.lower_snd settings.mode .empty tree)

/-- The constant pool of a program.  Its constants are the distinct literals and formats of the
tree in the order of their first occurrence, and no other list is; no two of them are the same
constant.  Every statement that mentions a place mentions the one of the literal or format that it
was made from, which is within the pool.  The constants do not depend on the settings, and a tree
that is continued keeps the constants and statements that it has. -/
theorem ofTree_constants (tree more : Tree) (settings : Settings) :
    (∀ distinct, FirstOccurrences distinct tree.literals ↔
      distinct = (ofTree tree settings).constants) ∧
    (ofTree tree settings).constants.Pairwise (fun v w => ¬ v.Same w) ∧
    tree.CarriedOut settings.mode (ofTree tree settings).constants
      (ofTree tree settings).statements ∧
    (∀ s ∈ (ofTree tree settings).statements, ∀ i ∈ s.action.places,
      i < (ofTree tree settings).constants.length) ∧
    (∀ other, (ofTree tree other).constants = (ofTree tree settings).constants) ∧
    (ofTree tree settings).constants <+: (ofTree (tree ++ more) settings).constants ∧
    (ofTree tree settings).statements <+: (ofTree (tree ++ more) settings).statements := by
  have hempty : FirstOccurrences Pool.empty.values [] := ⟨fun _ => Iff.rfl, .nil⟩
  have hfirst : FirstOccurrences (ofTree tree settings).constants tree.literals := by
    rw [constants_ofTree]
    exact hempty.internAll tree.literals
  have hcarried : tree.CarriedOut settings.mode (ofTree tree settings).constants
      (ofTree tree settings).statements :=
    Tree.carriedOut_lower List.prefix_rfl
  have happend := Tree.lower_append settings.mode .empty tree more
  refine ⟨fun distinct => ⟨hfirst.unique, ?_⟩, ?_, hcarried, hcarried.lt_length, ?_, ?_, ?_⟩
  · rintro rfl
    exact hfirst
  · exact hfirst.nodup.imp fun hne hsame => hne (Value.key_injective (Value.key_eq_of_same hsame))
  · intro other
    rw [constants_ofTree, constants_ofTree]
  · simp only [ofTree, happend]
    exact Tree.isPrefix_lower settings.mode _ more
  · simp only [ofTree, happend]
    exact List.prefix_append _ _

end Program

end ColonScript
