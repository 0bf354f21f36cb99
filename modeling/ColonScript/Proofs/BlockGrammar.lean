import Mathlib.Data.List.Forall2
import Mathlib.Data.List.TakeWhile
import ColonScript.Block
import ColonScript.Proofs.Basic

/-!
# The grammar of blocks

`Block.next` takes one block of tokens after the other and stops at the first broken rule.  This
file states what a block is without taking anything: as relations between a node, the tokens of
its block and the tokens after the block.  What comes after matters because operands are taken
as far as they go, and because the initial value of a definition is taken whenever it is there.

* `Represents` and `Denotes` say which values and operands arguments and tokens stand for.
* `OperandRun`, `FormatForm` and `InitialForm` are the parts of an `echo` and of a definition.
* `Form` is a block of any kind, and `Blocks` cuts all tokens into the blocks of a tree.

The main result is `Tree.ofTokens_eq_ok_iff_blocks`: a tree is made from tokens exactly if the
tokens can be cut into its blocks, and there is only one way to do so.
-/

namespace ColonScript

namespace Block

/-! ### Values and operands -/

/-- The value of an argument: a text without its escapes, digits that fit in 64 bits with sign,
or digits with a point.  Arguments of the other kinds have no value. -/
inductive Represents : Argument → Value → Prop
  | text {payload : String} : Represents ⟨.text, payload⟩ (.text (Value.ofPayload payload))
  | static {payload : String} {n : Int64} (hread : Decimal.int64? payload.toList = some n) :
      Represents ⟨.static, payload⟩ (.static n)
  | dynamic {payload : String} {x : Binary64} (hread : Binary64.read? payload.toList = some x) :
      Represents ⟨.dynamic, payload⟩ (.dynamic x)

/-- The reserved name that a command stands for. -/
def reserved? : CommandName → Option Reserved
  | .keyword .trueValue => some .trueValue
  | .keyword .falseValue => some .falseValue
  | .keyword .nullValue => some .nullValue
  | _ => none

/-- The operand of a token: a reference, a reserved name with any argument or none, or any other
command by the value of its argument. -/
inductive Denotes : Token → Operand → Prop
  | reference {t : Token} {r : Reference} (hkind : t.kind = .reference r) :
      Denotes t (.reference r)
  | reserved {t : Token} {c : Command} {r : Reserved} (hkind : t.kind = .command c)
      (hname : reserved? c.name = some r) : Denotes t (.reserved r)
  | literal {t : Token} {name : CommandName} {a : Argument} {v : Value}
      (hkind : t.kind = .command ⟨name, some a⟩) (hname : reserved? name = none)
      (hvalue : Represents a v) : Denotes t (.literal v)

/-- A token that an `echo` goes on with: a value, or anything that has an argument. -/
def Continues (t : Token) : Prop :=
  t.group = .value ∨ t.argument? ≠ none

/-- The operands of an `echo`: a run of tokens that is not empty and that the rest does not
continue. -/
structure OperandRun (operands : List Operand) (run rest : List Token) : Prop where
  ne_nil : run ≠ []
  all : ∀ t ∈ run, Continues t
  stops : ∀ t ∈ rest.head?, ¬ Continues t
  denotes : List.Forall₂ Denotes run operands

/-! ### Blocks -/

/-- The format of an `echo`, the tokens taken for it and the tokens after them: the text of the
`echo` itself, which a value must follow, or else the text of a `format` that comes next, or else
none. -/
inductive FormatForm (echo : Token) : Option String → List Token → List Token → Prop
  | own {payload : String} {next : Token} {more : List Token}
      (harg : echo.argument? = some ⟨.text, payload⟩) (hnext : next.group = .value) :
      FormatForm echo (some (Value.ofPayload payload)) [] (next :: more)
  | separate {payload : String} {format : Token} {rest : List Token}
      (hown : ∀ a ∈ echo.argument?, a.kind ≠ .text) (hformat : format.kindName = "format")
      (harg : format.argument? = some ⟨.text, payload⟩) :
      FormatForm echo (some (Value.ofPayload payload)) [format] rest
  | absent {next : Token} {more : List Token}
      (hown : ∀ a ∈ echo.argument?, a.kind ≠ .text) (hnext : next.kindName ≠ "format") :
      FormatForm echo none [] (next :: more)

/-- The keywords that declare a type. -/
def keywordsOf : TypeTag → List Keyword
  | .fn => [.func, .fn]
  | .static => [.static]
  | .dynamic => [.dynamic]
  | .text => [.text]
  | .list => [.list]
  | .dict => [.dict]
  | .obj => [.obj]
  | .null => []

/-- A token that declares a type. -/
def Declares (t : Token) (type : TypeTag) : Prop :=
  ∃ k ∈ keywordsOf type, t.isNamed (.keyword k) = true

/-- Whether a `store` and a value come next. -/
def StoreFollows : List Token → Prop
  | store :: value :: _ => store.kindName = "store" ∧ value.group = .value
  | _ => False

/-- The initial value of a definition, the tokens taken for it and the tokens after them. -/
inductive InitialForm : Option Operand → List Token → List Token → Prop
  | stored {store value : Token} {rest : List Token} {o : Operand}
      (hstore : store.kindName = "store") (hgroup : value.group = .value)
      (hvalue : Denotes value o) : InitialForm (some o) [store, value] rest
  | absent {rest : List Token} (hnot : ¬ StoreFollows rest) : InitialForm none [] rest

/-- The keywords that have a rule of their own. -/
def ruled : List Keyword := [.echo, .define, .const, .format, .store]

/-- A node, the tokens of its block and the tokens after the block; `before` is the token before
the block. -/
inductive Form (before : Option Token) : Node → List Token → List Token → Prop
  | echo {t : Token} {text : Option String} {operands : List Operand}
      {taken run rest : List Token} (hname : t.isNamed (.keyword .echo) = true)
      (hformat : FormatForm t text taken (run ++ rest)) (hrun : OperandRun operands run rest) :
      Form before (.echo t text operands) (t :: taken ++ run) rest
  | define {t typeToken target : Token} {type : TypeTag} {r : Reference}
      {initial : Option Operand} {taken rest : List Token}
      (hname : t.isNamed (.keyword .define) = true)
      (hgroup : typeToken.group = .dataType ∨ typeToken.group = .dataStructure)
      (htype : Declares typeToken type) (htarget : target.kind = .reference r)
      (hvar : r.sigil = .var) (hinitial : InitialForm initial taken rest) :
      Form before (.define t type r initial) (t :: typeToken :: target :: taken) rest
  | const {t : Token} {a : Argument} {v : Value} {rest : List Token}
      (hname : t.isNamed (.keyword .const) = true) (harg : t.argument? = some a)
      (hvalue : Represents a v) : Form before (.const t v) [t] rest
  | format {t : Token} {payload : String} {rest : List Token}
      (hname : t.isNamed (.keyword .format) = true)
      (harg : t.argument? = some ⟨.text, payload⟩)
      (hbefore : before.map Token.kindName = some "echo") :
      Form before (.format t (Value.ofPayload payload)) [t] rest
  | store {t : Token} {payload : String} {rest : List Token}
      (hname : t.isNamed (.keyword .store) = true)
      (harg : t.argument? = some ⟨.text, payload⟩)
      (hbefore : before.map Token.kindName = some "var") :
      Form before (.store t (Value.ofPayload payload)) [t] rest
  | passthrough {t : Token} {rest : List Token}
      (hname : ∀ k ∈ ruled, t.isNamed (.keyword k) = false) : Form before (.passthrough t) [t] rest

/-! ### Arguments that have a value -/

/-- The value of an argument can be computed exactly if it has one. -/
lemma ofArgument_eq_ok_iff {a : Argument} (line : ℕ) {v : Value} :
    Value.ofArgument a line = .ok v ↔ Represents a v := by
  obtain ⟨kind, payload⟩ := a
  constructor
  · intro h
    cases kind with
    | text =>
      obtain rfl := Except.ok.inj h
      exact .text
    | static =>
      simp only [Value.ofArgument] at h
      split at h
      · next n hread =>
        obtain rfl := Except.ok.inj h
        exact .static hread
      · simp at h
    | dynamic =>
      simp only [Value.ofArgument] at h
      split at h
      · next x hread =>
        obtain rfl := Except.ok.inj h
        exact .dynamic hread
      · simp at h
    | word => simp [Value.ofArgument] at h
    | index => simp [Value.ofArgument] at h
    | unknown => simp [Value.ofArgument] at h
  · intro h
    cases h with
    | text => rfl
    | static hread => simp [Value.ofArgument, hread]
    | dynamic hread => simp [Value.ofArgument, hread]

/-- The value of an argument that was found at a token. -/
lemma argumentValue_eq_ok_iff {a : Argument} {t : Token} {v : Value} :
    argumentValue a t = .ok v ↔ Represents a v := by
  rw [← ofArgument_eq_ok_iff t.line, argumentValue]
  cases Value.ofArgument a t.line <;> simp

/-- Only arguments of three kinds have a value. -/
lemma Represents.kind_mem {a : Argument} {v : Value} (h : Represents a v) :
    a.kind ∈ [ArgKind.text, .static, .dynamic] := by
  cases h <;> simp

lemma requireArgument_eq_ok_iff {kinds : List ArgKind} {t : Token} {a : Argument} :
    requireArgument kinds t = .ok a ↔ t.argument? = some a ∧ a.kind ∈ kinds := by
  unfold requireArgument
  cases t.argument? with
  | none => simp [broken]
  | some b =>
    by_cases hkind : b.kind ∈ kinds
    · simp only [hkind, if_true, Except.ok.injEq, Option.some.injEq]
      constructor
      · rintro rfl
        exact ⟨rfl, hkind⟩
      · exact fun h => h.1
    · simp only [hkind, if_false, broken, reduceCtorEq, Option.some.injEq, false_iff, not_and]
      rintro rfl
      exact hkind

lemma requireText_eq_ok_iff {t : Token} {text : String} :
    requireText t = .ok text ↔
      ∃ payload, t.argument? = some ⟨.text, payload⟩ ∧ Value.ofPayload payload = text := by
  unfold requireText
  cases hread : requireArgument [.text] t with
  | error e =>
    simp only [reduceCtorEq, false_iff, not_exists, not_and]
    intro payload hsome
    have hok := requireArgument_eq_ok_iff.2 ⟨hsome, List.mem_singleton.2 rfl⟩
    rw [hread] at hok
    simp at hok
  | ok a =>
    obtain ⟨hsome, hkind⟩ := requireArgument_eq_ok_iff.1 hread
    obtain ⟨kind, payload⟩ := a
    obtain rfl : kind = .text := by simpa using hkind
    simp [hsome]

lemma requireLiteral_eq_ok_iff {t : Token} {v : Value} :
    requireLiteral t = .ok v ↔ ∃ a, t.argument? = some a ∧ Represents a v := by
  unfold requireLiteral
  cases hread : requireArgument [.text, .static, .dynamic] t with
  | error e =>
    simp only [reduceCtorEq, false_iff, not_exists, not_and]
    intro a hsome hvalue
    have hok := requireArgument_eq_ok_iff.2 ⟨hsome, hvalue.kind_mem⟩
    rw [hread] at hok
    simp at hok
  | ok a =>
    obtain ⟨hsome, -⟩ := requireArgument_eq_ok_iff.1 hread
    simp [hsome, argumentValue_eq_ok_iff]

/-! ### Operands -/

/-- What a command denotes. -/
lemma denotes_command_iff {t : Token} {name : CommandName} {argument : Option Argument}
    {o : Operand} (hkind : t.kind = .command ⟨name, argument⟩) :
    Denotes t o ↔ (∃ r, reserved? name = some r ∧ .reserved r = o) ∨
      reserved? name = none ∧ ∃ a v, argument = some a ∧ Represents a v ∧ .literal v = o := by
  constructor
  · intro h
    cases h with
    | reference hother => simp [hkind] at hother
    | reserved hsame hname =>
      obtain rfl := TokenKind.command.inj (hkind.symm.trans hsame)
      exact .inl ⟨_, hname, rfl⟩
    | literal hsame hname hvalue =>
      obtain ⟨rfl, rfl⟩ := Command.mk.inj (TokenKind.command.inj (hkind.symm.trans hsame))
      exact .inr ⟨hname, _, _, rfl, hvalue, rfl⟩
  · rintro (⟨r, hname, rfl⟩ | ⟨hname, a, v, rfl, hvalue, rfl⟩)
    · exact .reserved hkind hname
    · exact .literal hkind hname hvalue

/-- Only three names are reserved. -/
lemma reserved?_eq_none {name : CommandName} (htrue : name ≠ .keyword .trueValue)
    (hfalse : name ≠ .keyword .falseValue) (hnull : name ≠ .keyword .nullValue) :
    reserved? name = none := by
  unfold reserved?
  split <;> simp_all

/-- The operand of a token can be made exactly if the token denotes it. -/
lemma operand_eq_ok_iff {t : Token} {o : Operand} : operand t = .ok o ↔ Denotes t o := by
  unfold operand
  split
  · next r hkind =>
    constructor
    · intro h
      obtain rfl := Except.ok.inj h
      exact .reference hkind
    · intro h
      cases h with
      | reference hsame => rw [TokenKind.reference.inj (hkind.symm.trans hsame)]
      | reserved hother => simp [hkind] at hother
      | literal hother => simp [hkind] at hother
  · next argument hkind =>
    have harg : t.argument? = argument := by simp [Token.argument?, Token.command?, hkind]
    rw [denotes_command_iff hkind, map_eq_ok_iff]
    simp only [requireLiteral_eq_ok_iff, harg, reserved?]
    constructor
    · rintro ⟨v, ⟨a, ha, hvalue⟩, rfl⟩
      exact .inr ⟨trivial, a, v, ha, hvalue, rfl⟩
    · rintro (⟨r, hr, -⟩ | ⟨-, a, v, ha, hvalue, rfl⟩)
      · simp at hr
      · exact ⟨v, ⟨a, ha, hvalue⟩, rfl⟩
  · next hkind => simp [denotes_command_iff hkind, reserved?]
  · next hkind => simp [denotes_command_iff hkind, reserved?]
  · next hkind => simp [denotes_command_iff hkind, reserved?]
  · next name a _ htrue hfalse hnull hkind =>
    have hname := reserved?_eq_none htrue hfalse hnull
    simp [denotes_command_iff hkind, hname, map_eq_ok_iff, argumentValue_eq_ok_iff]
  · next name _ htrue hfalse hnull hkind =>
    have hname := reserved?_eq_none htrue hfalse hnull
    simp [denotes_command_iff hkind, hname, broken]

/-- The operands of some tokens can be made exactly if each token denotes its operand. -/
lemma operands_eq_ok_iff {tokens : List Token} {os : List Operand} :
    operands tokens = .ok os ↔ List.Forall₂ Denotes tokens os := by
  induction tokens generalizing os with
  | nil => simp [operands, eq_comm]
  | cons t more ih =>
    rw [operands, List.forall₂_cons_left_iff]
    cases hfirst : operand t with
    | error e =>
      simp only [reduceCtorEq, false_iff, not_exists, not_and]
      intro o os' ho
      rw [← operand_eq_ok_iff, hfirst] at ho
      simp at ho
    | ok o =>
      have hdenotes (o' : Operand) : Denotes t o' ↔ o = o' := by
        rw [← operand_eq_ok_iff, hfirst, Except.ok.injEq]
      simp only [map_eq_ok_iff, ih, hdenotes]
      constructor
      · rintro ⟨os', hmore, rfl⟩
        exact ⟨o, os', rfl, hmore, rfl⟩
      · rintro ⟨_, os', rfl, hmore, rfl⟩
        exact ⟨os', hmore, rfl⟩

/-- The test for operands is the one by which an `echo` goes on. -/
lemma isOperand_iff {t : Token} : isOperand t = true ↔ Continues t := by
  simp [isOperand, Continues, Option.isSome_iff_ne_none]

/-- The tokens that are taken as operands make up a run, if there are any. -/
lemma operandRun_takeWhile {tokens : List Token} {os : List Operand}
    (hne : tokens.takeWhile isOperand ≠ [])
    (hos : operands (tokens.takeWhile isOperand) = .ok os) :
    OperandRun os (tokens.takeWhile isOperand) (tokens.dropWhile isOperand) := by
  refine ⟨hne, fun t ht => isOperand_iff.1 (List.mem_takeWhile_imp ht), fun t ht => ?_,
    operands_eq_ok_iff.1 hos⟩
  have hhead := List.head?_dropWhile_not isOperand tokens
  rw [Option.mem_def.1 ht] at hhead
  rw [← isOperand_iff]
  simpa using hhead

namespace OperandRun

variable {os : List Operand} {run rest : List Token}

/-- A run is all that is taken. -/
lemma takeWhile_append (h : OperandRun os run rest) : (run ++ rest).takeWhile isOperand = run := by
  rw [List.takeWhile_append_of_pos fun t ht => isOperand_iff.2 (h.all t ht)]
  cases rest with
  | nil => simp
  | cons t more =>
    have hstop : isOperand t = false := by simpa [← isOperand_iff] using h.stops t rfl
    simp [hstop]

/-- The rest of a run is all that is left. -/
lemma dropWhile_append (h : OperandRun os run rest) : (run ++ rest).dropWhile isOperand = rest := by
  have hsplit := List.takeWhile_append_dropWhile (p := isOperand) (l := run ++ rest)
  rw [h.takeWhile_append] at hsplit
  exact List.append_cancel_left hsplit

end OperandRun

/-! ### Blocks of an `echo` -/

/-- What is taken as the format has the form of one. -/
lemma formatForm_of_echoFormat {t : Token} {rest : List Token} {f : Taken (Option String)}
    (h : echoFormat t rest = .ok f) : FormatForm t f.value f.tokens f.rest := by
  unfold echoFormat at h
  split at h
  · simp [broken] at h
  · next next more =>
    split at h
    · next payload harg =>
      split_ifs at h with hvalue
      · obtain rfl := Except.ok.inj h
        exact .own harg hvalue
      · simp [broken] at h
    · next hown =>
      have hkind : ∀ a ∈ t.argument?, a.kind ≠ .text := by
        rintro ⟨kind, payload⟩ ha rfl
        exact hown payload ha
      split_ifs at h with hformat
      · split at h
        · simp at h
        · next text htext =>
          obtain ⟨payload, harg, rfl⟩ := requireText_eq_ok_iff.1 htext
          obtain rfl := Except.ok.inj h
          exact .separate hkind hformat harg
      · obtain rfl := Except.ok.inj h
        exact .absent hkind hformat

/-- The form of a format is taken as the format. -/
lemma echoFormat_of_formatForm {t : Token} {text : Option String} {taken rest : List Token}
    (h : FormatForm t text taken rest) :
    echoFormat t (taken ++ rest) = .ok ⟨text, taken, rest⟩ := by
  have hnot (hown : ∀ a ∈ t.argument?, a.kind ≠ .text) (payload : String) :
      t.argument? ≠ some ⟨.text, payload⟩ := fun harg => hown _ harg rfl
  cases h with
  | own harg hnext => simp [echoFormat, harg, hnext]
  | @separate payload format _ hown hformat harg =>
    have htext := requireText_eq_ok_iff.2 ⟨payload, harg, rfl⟩
    simp only [List.cons_append, List.nil_append, echoFormat]
    split
    · next other hother => exact absurd hother (hnot hown other)
    · simp [hformat, htext]
  | absent hown hnext =>
    simp only [List.nil_append, echoFormat]
    split
    · next other hother => exact absurd hother (hnot hown other)
    · simp [hnext]

/-- What is taken as an `echo` has the form of one. -/
lemma form_of_echo {before : Option Token} {t : Token} {rest : List Token} {b : Block}
    (hname : t.isNamed (.keyword .echo) = true) (h : echo t rest = .ok b) :
    Form before b.node (t :: b.tail) b.rest := by
  unfold echo at h
  split at h
  · simp at h
  · next f hf =>
    split at h
    · simp at h
    · simp [broken] at h
    · next os hne hos =>
      obtain rfl := Except.ok.inj h
      have hrun : f.rest.takeWhile isOperand ≠ [] := by
        intro hnil
        rw [hnil, operands] at hos
        exact hne (Except.ok.inj hos).symm
      refine .echo hname ?_ (operandRun_takeWhile hrun hos)
      rw [List.takeWhile_append_dropWhile]
      exact formatForm_of_echoFormat hf

/-- The form of an `echo` is taken as one. -/
lemma echo_of_form {t : Token} {text : Option String} {os : List Operand}
    {taken run rest : List Token} (hformat : FormatForm t text taken (run ++ rest))
    (hrun : OperandRun os run rest) :
    echo t (taken ++ run ++ rest) = .ok ⟨.echo t text os, taken ++ run, rest⟩ := by
  have hos := operands_eq_ok_iff.2 hrun.denotes
  unfold echo
  rw [List.append_assoc, echoFormat_of_formatForm hformat]
  simp only [hrun.takeWhile_append, hrun.dropWhile_append, hos]
  cases os with
  | nil => exact absurd (List.forall₂_nil_right_iff.1 hrun.denotes) hrun.ne_nil
  | cons o os => rfl


/-! ### Blocks of a definition -/

/-- The tokens of a given keyword. -/
lemma isNamed_keyword_iff {t : Token} {k : Keyword} :
    t.isNamed (.keyword k) = true ↔ ∃ argument, t.kind = .command ⟨.keyword k, argument⟩ := by
  unfold Token.isNamed
  cases t.kind with
  | reference r => simp
  | command c =>
    obtain ⟨name, argument⟩ := c
    simp

/-- The tokens of anything but a given keyword. -/
lemma isNamed_keyword_eq_false {t : Token} {k : Keyword}
    (h : ∀ argument, t.kind ≠ .command ⟨.keyword k, argument⟩) :
    t.isNamed (.keyword k) = false := by
  rw [← Bool.not_eq_true, isNamed_keyword_iff]
  rintro ⟨argument, hkind⟩
  exact h argument hkind

/-- The declared type is found exactly if the token declares it. -/
lemma declaredType?_eq_some_iff {t : Token} {type : TypeTag} :
    declaredType? t = some type ↔ Declares t type := by
  unfold Declares
  simp only [isNamed_keyword_iff]
  constructor
  · intro h
    unfold declaredType? at h
    split at h
    case h_9 => simp at h
    all_goals
      next argument hkind =>
        obtain rfl := Option.some.inj h
        refine ⟨_, ?_, argument, hkind⟩
        simp [keywordsOf]
  · rintro ⟨k, hk, argument, hkind⟩
    unfold declaredType?
    rw [hkind]
    cases type <;> simp only [keywordsOf, List.mem_cons, List.not_mem_nil, or_false] at hk
    case fn => rcases hk with rfl | rfl <;> rfl
    all_goals subst hk; rfl

lemma requireType_eq_ok_iff {t target : Token} {type : TypeTag} :
    requireType t target = .ok type ↔
      (t.group = .dataType ∨ t.group = .dataStructure) ∧ target.kindName = "var" ∧
        Declares t type := by
  have hmem : t.group ∈ declaring ↔ t.group = .dataType ∨ t.group = .dataStructure := by
    simp [declaring]
  unfold requireType
  rw [← declaredType?_eq_some_iff, ← hmem]
  by_cases hgroup : t.group ∈ declaring
  · by_cases hvar : target.kindName = "var"
    · cases declaredType? t <;> simp [hgroup, hvar, broken]
    · simp [hgroup, hvar, broken]
  · simp [hgroup, broken]

lemma requireVariable_eq_ok_iff {t : Token} {r : Reference} :
    requireVariable t = .ok r ↔ t.kind = .reference r ∧ r.sigil = .var := by
  unfold requireVariable
  cases t.kind with
  | command c => simp [broken]
  | reference other =>
    dsimp only
    split_ifs with hvar
    · simp only [Except.ok.injEq, TokenKind.reference.injEq]
      constructor
      · rintro rfl
        exact ⟨rfl, hvar⟩
      · exact fun h => h.1
    · simp only [broken, reduceCtorEq, TokenKind.reference.injEq, false_iff, not_and]
      rintro rfl
      exact hvar

/-- What is taken as the initial value has the form of one. -/
lemma initialForm_of_initialValue {rest : List Token} {f : Taken (Option Operand)}
    (h : initialValue rest = .ok f) : InitialForm f.value f.tokens f.rest := by
  unfold initialValue at h
  split at h
  · next store value more =>
    split_ifs at h with hboth
    · split at h
      · simp at h
      · next o ho =>
        obtain rfl := Except.ok.inj h
        exact .stored hboth.1 hboth.2 (operand_eq_ok_iff.1 ho)
    · obtain rfl := Except.ok.inj h
      exact .absent hboth
  · next hshort =>
    obtain rfl := Except.ok.inj h
    refine .absent ?_
    match rest, hshort with
    | [], _ => exact id
    | [_], _ => exact id
    | store :: value :: more, hshort => exact absurd rfl (hshort store value more)

/-- The form of an initial value is taken as one. -/
lemma initialValue_of_initialForm {initial : Option Operand} {taken rest : List Token}
    (h : InitialForm initial taken rest) :
    initialValue (taken ++ rest) = .ok ⟨initial, taken, rest⟩ := by
  cases h with
  | stored hstore hgroup hvalue =>
    simp [initialValue, hstore, hgroup, operand_eq_ok_iff.2 hvalue]
  | absent hnot =>
    match rest, hnot with
    | [], _ => rfl
    | [_], _ => rfl
    | store :: value :: more, hnot => exact if_neg hnot

/-- What is taken as a definition has the form of one. -/
lemma form_of_define {before : Option Token} {t : Token} {rest : List Token} {b : Block}
    (hname : t.isNamed (.keyword .define) = true) (h : define t rest = .ok b) :
    Form before b.node (t :: b.tail) b.rest := by
  unfold define at h
  split at h
  · simp [broken] at h
  · simp [broken] at h
  · next typeToken target more =>
    split at h
    · simp at h
    · simp at h
    · simp at h
    · next type slot initial htype hslot hinitial =>
      obtain ⟨hgroup, -, hdeclares⟩ := requireType_eq_ok_iff.1 htype
      obtain ⟨htarget, hvar⟩ := requireVariable_eq_ok_iff.1 hslot
      obtain rfl := Except.ok.inj h
      exact .define hname hgroup hdeclares htarget hvar (initialForm_of_initialValue hinitial)

/-- The form of a definition is taken as one. -/
lemma define_of_form {t typeToken target : Token} {type : TypeTag} {r : Reference}
    {initial : Option Operand} {taken rest : List Token}
    (hgroup : typeToken.group = .dataType ∨ typeToken.group = .dataStructure)
    (hdeclares : Declares typeToken type) (htarget : target.kind = .reference r)
    (hvar : r.sigil = .var) (hinitial : InitialForm initial taken rest) :
    define t (typeToken :: target :: taken ++ rest) =
      .ok ⟨.define t type r initial, typeToken :: target :: taken, rest⟩ := by
  have hkindName : target.kindName = "var" := by simp [Token.kindName, htarget]
  have htype := requireType_eq_ok_iff.2 ⟨hgroup, hkindName, hdeclares⟩
  have hslot := requireVariable_eq_ok_iff.2 ⟨htarget, hvar⟩
  simp [define, htype, hslot, initialValue_of_initialForm hinitial]

/-! ### All blocks -/

lemma modifierText_eq_ok_iff {before : Option Token} {t : Token} {kindName text : String} :
    modifierText before t kindName = .ok text ↔
      (∃ payload, t.argument? = some ⟨.text, payload⟩ ∧ Value.ofPayload payload = text) ∧
        before.map Token.kindName = some kindName := by
  rw [← requireText_eq_ok_iff]
  unfold modifierText
  cases requireText t with
  | error e => simp
  | ok found =>
    cases before with
    | none => simp [broken]
    | some other =>
      by_cases hkind : other.kindName = kindName
      · simp [hkind]
      · simp [hkind, broken]

/-- A token that is a block of its own has the form of its node. -/
lemma form_of_single {before : Option Token} {t : Token} {node : Node} (rest : List Token)
    (hecho : t.isNamed (.keyword .echo) = false) (hdefine : t.isNamed (.keyword .define) = false)
    (h : single before t = .ok node) : Form before node [t] rest := by
  unfold single at h
  split at h
  · next argument hkind =>
    obtain ⟨v, hv, rfl⟩ := map_eq_ok_iff.1 h
    obtain ⟨a, ha, hvalue⟩ := requireLiteral_eq_ok_iff.1 hv
    exact .const (isNamed_keyword_iff.2 ⟨argument, hkind⟩) ha hvalue
  · next argument hkind =>
    obtain ⟨text, htext, rfl⟩ := map_eq_ok_iff.1 h
    obtain ⟨⟨payload, harg, rfl⟩, hbefore⟩ := modifierText_eq_ok_iff.1 htext
    exact .format (isNamed_keyword_iff.2 ⟨argument, hkind⟩) harg hbefore
  · next argument hkind =>
    obtain ⟨text, htext, rfl⟩ := map_eq_ok_iff.1 h
    obtain ⟨⟨payload, harg, rfl⟩, hbefore⟩ := modifierText_eq_ok_iff.1 htext
    exact .store (isNamed_keyword_iff.2 ⟨argument, hkind⟩) harg hbefore
  · next hconst hformat hstore =>
    obtain rfl := Except.ok.inj h
    refine .passthrough ?_
    simp only [ruled, List.forall_mem_cons]
    exact ⟨hecho, hdefine, isNamed_keyword_eq_false hconst, isNamed_keyword_eq_false hformat,
      isNamed_keyword_eq_false hstore, by simp⟩

/-- What is taken as a block has the form of its node. -/
lemma form_of_next {before : Option Token} {t : Token} {rest : List Token} {b : Block}
    (h : next before t rest = .ok b) : Form before b.node (t :: b.tail) b.rest := by
  unfold next at h
  split at h
  · next argument hkind => exact form_of_echo (isNamed_keyword_iff.2 ⟨argument, hkind⟩) h
  · next argument hkind => exact form_of_define (isNamed_keyword_iff.2 ⟨argument, hkind⟩) h
  · next hecho hdefine =>
    obtain ⟨node, hnode, rfl⟩ := map_eq_ok_iff.1 h
    exact form_of_single rest (isNamed_keyword_eq_false hecho)
      (isNamed_keyword_eq_false hdefine) hnode

/-- A token without a rule of its own passes through. -/
lemma next_of_not_ruled {before : Option Token} {t : Token} {rest : List Token}
    (hname : ∀ k ∈ ruled, t.isNamed (.keyword k) = false) :
    next before t rest = .ok ⟨.passthrough t, [], rest⟩ := by
  have hnot {k : Keyword} {argument : Option Argument} (hk : k ∈ ruled)
      (hkind : t.kind = .command ⟨.keyword k, argument⟩) : False := by
    have hnamed := isNamed_keyword_iff.2 ⟨argument, hkind⟩
    rw [hname k hk] at hnamed
    simp at hnamed
  unfold next
  split
  · next hkind => exact (hnot (by simp [ruled]) hkind).elim
  · next hkind => exact (hnot (by simp [ruled]) hkind).elim
  · unfold single
    split
    · next hkind => exact (hnot (by simp [ruled]) hkind).elim
    · next hkind => exact (hnot (by simp [ruled]) hkind).elim
    · next hkind => exact (hnot (by simp [ruled]) hkind).elim
    · rfl

/-- The form of a node is taken as its block. -/
lemma next_of_form {before : Option Token} {node : Node} {t : Token} {tail rest : List Token}
    (h : Form before node (t :: tail) rest) :
    next before t (tail ++ rest) = .ok ⟨node, tail, rest⟩ := by
  generalize hblock : t :: tail = block at h
  cases h with
  | echo hname hformat hrun =>
    rw [List.cons_append] at hblock
    obtain ⟨rfl, rfl⟩ := List.cons.inj hblock
    obtain ⟨argument, hkind⟩ := isNamed_keyword_iff.1 hname
    simp only [next, hkind, echo_of_form hformat hrun]
  | define hname hgroup htype htarget hvar hinitial =>
    obtain ⟨rfl, rfl⟩ := List.cons.inj hblock
    obtain ⟨argument, hkind⟩ := isNamed_keyword_iff.1 hname
    simp only [next, hkind, define_of_form hgroup htype htarget hvar hinitial]
  | const hname harg hvalue =>
    obtain ⟨rfl, rfl⟩ := List.cons.inj hblock
    obtain ⟨argument, hkind⟩ := isNamed_keyword_iff.1 hname
    have hliteral := requireLiteral_eq_ok_iff.2 ⟨_, harg, hvalue⟩
    simp [next, single, hkind, hliteral, Except.map]
  | format hname harg hbefore =>
    obtain ⟨rfl, rfl⟩ := List.cons.inj hblock
    obtain ⟨argument, hkind⟩ := isNamed_keyword_iff.1 hname
    have htext := modifierText_eq_ok_iff.2 ⟨⟨_, harg, rfl⟩, hbefore⟩
    simp [next, single, hkind, htext, Except.map]
  | store hname harg hbefore =>
    obtain ⟨rfl, rfl⟩ := List.cons.inj hblock
    obtain ⟨argument, hkind⟩ := isNamed_keyword_iff.1 hname
    have htext := modifierText_eq_ok_iff.2 ⟨⟨_, harg, rfl⟩, hbefore⟩
    simp [next, single, hkind, htext, Except.map]
  | passthrough hname =>
    obtain ⟨rfl, rfl⟩ := List.cons.inj hblock
    exact next_of_not_ruled hname

/-- A block starts with the token of its node. -/
lemma Form.head {before : Option Token} {node : Node} {block rest : List Token}
    (h : Form before node block rest) : ∃ tail, block = node.token :: tail := by
  cases h with
  | echo => exact ⟨_, rfl⟩
  | define => exact ⟨_, rfl⟩
  | const => exact ⟨_, rfl⟩
  | format => exact ⟨_, rfl⟩
  | store => exact ⟨_, rfl⟩
  | passthrough => exact ⟨_, rfl⟩

/-- Two blocks at the front of the same tokens are the same. -/
lemma Form.unique {before : Option Token} {node node' : Node}
    {block block' rest rest' : List Token} (hsame : block ++ rest = block' ++ rest')
    (h : Form before node block rest) (h' : Form before node' block' rest') :
    node = node' ∧ block = block' ∧ rest = rest' := by
  obtain ⟨tail, rfl⟩ := h.head
  obtain ⟨tail', rfl⟩ := h'.head
  rw [List.cons_append, List.cons_append] at hsame
  obtain ⟨htoken, htail⟩ := List.cons.inj hsame
  have hnext := next_of_form h
  rw [htoken, htail, next_of_form h'] at hnext
  simp only [Except.ok.injEq, Block.mk.injEq] at hnext
  obtain ⟨rfl, rfl, rfl⟩ := hnext
  exact ⟨rfl, rfl, rfl⟩

end Block

/-! ### Trees -/

/-- The blocks of a tree: they make up the tokens, the first token of each is the token of its
node, and each has the form of its node between the tokens before and after it. -/
structure Tree.Blocks (before : Option Token) (tokens : List Token) (tree : Tree)
    (blocks : List (List Token)) : Prop where
  whole : blocks.flatten = tokens
  first : blocks.map List.head? = tree.map fun node => some node.token
  form : ∀ earlier block later, blocks = earlier ++ block :: later →
    ∃ node ∈ tree[earlier.length]?,
      Block.Form (before.toList ++ earlier.flatten).getLast? node block later.flatten

namespace Tree

variable {before : Option Token} {tokens : List Token} {tree : Tree} {blocks : List (List Token)}

/-- A tree without nodes has no blocks. -/
lemma blocks_nil_iff : Blocks before tokens [] blocks ↔ tokens = [] ∧ blocks = [] := by
  constructor
  · intro h
    obtain rfl : blocks = [] := by simpa using h.first
    exact ⟨h.whole.symm, rfl⟩
  · rintro ⟨rfl, rfl⟩
    exact ⟨rfl, rfl, by simp⟩

/-- The last token before a later block does not depend on what stands before the first block. -/
lemma getLast?_append_block {block : List Token} (hne : block ≠ []) (earlier : List Token) :
    (before.toList ++ (block ++ earlier)).getLast? =
      (block.getLast?.toList ++ earlier).getLast? := by
  obtain ⟨t, ht⟩ := Option.ne_none_iff_exists'.1 (mt List.getLast?_eq_none_iff.1 hne)
  simp [List.getLast?_append, List.getLast?_cons, ht]

/-- The blocks of a tree are the one of its first node and those of the others. -/
lemma blocks_cons_iff {node : Node} :
    Blocks before tokens (node :: tree) blocks ↔
      ∃ block later, blocks = block :: later ∧ tokens = block ++ later.flatten ∧
        Block.Form before node block later.flatten ∧
        Blocks block.getLast? later.flatten tree later := by
  constructor
  · intro h
    cases blocks with
    | nil => simpa using h.first
    | cons block later =>
      obtain ⟨hhead, hfirst⟩ := List.cons.inj h.first
      have hne : block ≠ [] := by
        rintro rfl
        simp at hhead
      refine ⟨block, later, rfl, h.whole.symm, ?_, rfl, hfirst, fun earlier other rest hlater => ?_⟩
      · obtain ⟨same, hsame, hform⟩ := h.form [] block later rfl
        obtain rfl : node = same := by simpa using hsame
        cases before <;> simpa using hform
      · obtain ⟨same, hsame, hform⟩ := h.form (block :: earlier) other rest (by rw [hlater]; rfl)
        refine ⟨same, by simpa using hsame, ?_⟩
        rwa [List.flatten_cons, getLast?_append_block hne] at hform
  · rintro ⟨block, later, rfl, rfl, hform, h⟩
    obtain ⟨tail, htail⟩ := hform.head
    have hne : block ≠ [] := by simp [htail]
    refine ⟨rfl, by simp [htail, h.first], fun earlier other rest hsplit => ?_⟩
    cases earlier with
    | nil =>
      obtain ⟨rfl, rfl⟩ := List.cons.inj hsplit
      refine ⟨node, by simp, ?_⟩
      cases before <;> simpa using hform
    | cons start earlier =>
      obtain ⟨rfl, hlater⟩ := List.cons.inj hsplit
      obtain ⟨same, hsame, hother⟩ := h.form earlier other rest hlater
      refine ⟨same, by simpa using hsame, ?_⟩
      rwa [List.flatten_cons, getLast?_append_block hne]

/-- The tree and its blocks are determined by the tokens. -/
lemma Blocks.unique {other : Tree} {blocks' : List (List Token)}
    (h : Blocks before tokens tree blocks) (h' : Blocks before tokens other blocks') :
    tree = other ∧ blocks = blocks' := by
  induction tree generalizing before tokens other blocks blocks' with
  | nil =>
    obtain ⟨rfl, rfl⟩ := blocks_nil_iff.1 h
    cases other with
    | nil => exact ⟨rfl, (blocks_nil_iff.1 h').2.symm⟩
    | cons node rest =>
      obtain ⟨block, later, -, hnil, hform, -⟩ := blocks_cons_iff.1 h'
      obtain ⟨tail, rfl⟩ := hform.head
      simp at hnil
  | cons node rest ih =>
    obtain ⟨block, later, rfl, rfl, hform, hlater⟩ := blocks_cons_iff.1 h
    cases other with
    | nil =>
      obtain ⟨tail, rfl⟩ := hform.head
      simpa using (blocks_nil_iff.1 h').1
    | cons node' rest' =>
      obtain ⟨block', later', rfl, hsame, hform', hlater'⟩ := blocks_cons_iff.1 h'
      obtain ⟨rfl, rfl, hflat⟩ := hform.unique hsame hform'
      rw [← hflat] at hlater'
      obtain ⟨rfl, rfl⟩ := ih hlater hlater'
      exact ⟨rfl, rfl⟩

/-- A tree has the node of the first block, and then those of the tokens after it. -/
lemma ofTokensAfter_cons (before : Option Token) (t : Token) (rest : List Token) :
    ofTokensAfter before (t :: rest) =
      (Block.next before t rest).bind fun b =>
        (ofTokensAfter (t :: b.tail).getLast? b.rest).map (b.node :: ·) := by
  rw [ofTokensAfter]
  split
  · next e hnext =>
    rw [hnext]
    rfl
  · next b hnext =>
    have hlast : (t :: b.tail).getLast? = some (b.tail.getLastD t) := by
      rw [List.getLast?_cons, List.getLastD_eq_getLast?]
    rw [hnext, ← hlast]
    rfl

/-- A tree is made from its first block and the tokens after it. -/
lemma ofTokensAfter_cons_eq_ok_iff {t : Token} {rest : List Token} :
    ofTokensAfter before (t :: rest) = .ok tree ↔
      ∃ b nodes, Block.next before t rest = .ok b ∧
        ofTokensAfter (t :: b.tail).getLast? b.rest = .ok nodes ∧ b.node :: nodes = tree := by
  rw [ofTokensAfter_cons]
  cases Block.next before t rest with
  | error e => simp [Except.bind]
  | ok b => simp [Except.bind, map_eq_ok_iff]

/-- The tokens from which a tree is made can be cut into its blocks. -/
lemma exists_blocks_of_ofTokensAfter (h : ofTokensAfter before tokens = .ok tree) :
    ∃ blocks, Blocks before tokens tree blocks := by
  induction tree generalizing before tokens with
  | nil =>
    cases tokens with
    | nil => exact ⟨[], blocks_nil_iff.2 ⟨rfl, rfl⟩⟩
    | cons t rest =>
      obtain ⟨b, nodes, -, -, hcons⟩ := ofTokensAfter_cons_eq_ok_iff.1 h
      simp at hcons
  | cons node nodes ih =>
    cases tokens with
    | nil => simp [ofTokensAfter] at h
    | cons t rest =>
      obtain ⟨b, nodes', hnext, hafter, hcons⟩ := ofTokensAfter_cons_eq_ok_iff.1 h
      obtain ⟨rfl, rfl⟩ := List.cons.inj hcons
      obtain ⟨later, hlater⟩ := ih hafter
      have hwhole := hlater.whole
      have hform := Block.form_of_next hnext
      rw [← hwhole] at hform hlater
      refine ⟨(t :: b.tail) :: later, blocks_cons_iff.2 ⟨_, later, rfl, ?_, hform, hlater⟩⟩
      rw [List.cons_append, hwhole, Block.tail_append_rest hnext]

/-- A tree is made from tokens that can be cut into its blocks. -/
lemma ofTokensAfter_of_blocks (h : Blocks before tokens tree blocks) :
    ofTokensAfter before tokens = .ok tree := by
  induction tree generalizing before tokens blocks with
  | nil =>
    obtain ⟨rfl, -⟩ := blocks_nil_iff.1 h
    rw [ofTokensAfter]
  | cons node nodes ih =>
    obtain ⟨block, later, rfl, rfl, hform, hlater⟩ := blocks_cons_iff.1 h
    obtain ⟨tail, rfl⟩ := hform.head
    rw [List.cons_append]
    exact ofTokensAfter_cons_eq_ok_iff.2 ⟨_, nodes, Block.next_of_form hform, ih hlater, rfl⟩

/-- A tree is made from tokens exactly if the tokens can be cut into blocks, one for each node in
order, that have the forms of the nodes; and then there is only one way to cut them. -/
theorem ofTokens_eq_ok_iff_blocks (tokens : List Token) (tree : Tree) :
    (ofTokens tokens = .ok tree ↔ ∃ blocks, Blocks none tokens tree blocks) ∧
      (ofTokens tokens = .ok tree ↔ ∃! blocks, Blocks none tokens tree blocks) := by
  have hsome : ofTokens tokens = .ok tree ↔ ∃ blocks, Blocks none tokens tree blocks := by
    constructor
    · exact exists_blocks_of_ofTokensAfter
    · rintro ⟨blocks, h⟩
      exact ofTokensAfter_of_blocks h
  refine ⟨hsome, hsome.trans ⟨?_, ExistsUnique.exists⟩⟩
  rintro ⟨blocks, h⟩
  exact ⟨blocks, h, fun other hother => (hother.unique h).2⟩

end Tree

end ColonScript
