import Mathlib
import ColonScript.Proofs.BlockGrammar

/-!
# Building by a cursor

`Tree.ofTokens` goes through a list from its front, so it never asks for a token that is not there.
The builder of this file keeps all tokens and a place among them instead.  It looks at the token at
the place, one before, one after and two after it, and lists of rules say what has to hold there.
What can go wrong on such a walk is a `Stop` of its own: a token that is asked for outside of the
list, and a block that does not lead on.  A broken rule is reported at its place, and at the last
token if the place lies after it.

The builder asks a classifier for the groups of tokens.  What this has been asked before depends on
all that came before, failed attempts included, but no result does: `Gives` says that a walk comes
to a result whatever groups are remembered.

From every place the builder takes the block that starts there (`gives_node`).  So it gives the tree
of the tokens or their error, and nothing else (`build_eq`).
-/

namespace ColonScript.Cursor

/-- Why the builder stops without a tree. -/
inductive Stop where
  /-- A token is asked for at a place where there is none. -/
  | outside (place : ℕ)
  /-- The block at a place does not lead on. -/
  | stalled (place : ℕ)
  /-- The tokens are refused. -/
  | refused (e : BuildError)

/-- A part of the way of the builder.  It may stop, and the groups asked for are remembered also
when it does. -/
abbrev Walk := EStateM Stop Classifier

/-! ### Places -/

/-- The token at a place that must have one. -/
def get (tokens : List Token) (i : ℕ) : Walk Token :=
  match tokens[i]? with
  | some t => pure t
  | none => throw (.outside i)

/-- The token before a place that must have one. -/
def previous (tokens : List Token) : ℕ → Walk Token
  | 0 => throw (.outside 0)
  | i + 1 => get tokens i

/-- The failure of a rule at a place, or at the last token if the place lies after it. -/
def fail {α : Type} (tokens : List Token) (i : ℕ) (rule : BrokenRule) : Walk α := do
  let token ← get tokens (min i (tokens.length - 1))
  throw (.refused (.violation (.ofToken rule token)))

/-- The token at a place, or the failure of a list that has come to its end. -/
def tokenAt (tokens : List Token) (i : ℕ) : Walk Token :=
  match tokens[i]? with
  | some t => pure t
  | none => fail tokens i .unexpectedEnd

/-- The group of a token, as the classifier knows it. -/
def groupOf (token : Token) : Walk Group :=
  modifyGet fun c => c.classify token.kindName

/-! ### Rules -/

/-- What a token beside another must be. -/
inductive Neighbour where
  | kind (name : String)
  | group (groups : List Group)

/-- Whether a token is the neighbour that is asked for. -/
def Neighbour.admits : Neighbour → Token → Walk Bool
  | kind name, t => pure (t.kindName = name)
  | group groups, t => (· ∈ groups) <$> groupOf t

/-- The wording of a neighbour. -/
def Neighbour.text : Neighbour → String
  | kind name => ":" ++ name
  | group groups => "a " ++ ", ".intercalate (groups.map Group.name) ++ " token"

/-- What is asked of a place. -/
inductive Rule where
  | last (expected : Bool)
  | first (expected : Bool)
  | after (neighbour : Neighbour)
  | before (neighbour : Neighbour)
  | hasArgument
  | argument (kinds : List ArgKind)
  | group (groups : List Group)
  | kind (name : String)

/-- Fails with a rule unless a condition holds. -/
def require (tokens : List Token) (i : ℕ) (condition : Bool) (rule : BrokenRule) : Walk Unit :=
  if condition then pure () else fail tokens i rule

/-- Checks the argument of a token, if there is one. -/
def checkArgument (tokens : List Token) (i : ℕ) (token : Token) (check : Argument → Walk Unit) :
    Walk Unit :=
  match token.argument? with
  | none => fail tokens i .argumentRequired
  | some a => check a

/-- Checks one rule at a place. -/
def checkRule (tokens : List Token) (i : ℕ) (rule : Rule) : Walk Unit := do
  let token ← tokenAt tokens i
  match rule with
  | .last expected =>
    require tokens i (expected == (tokens.length ≤ i + 1))
      (if expected then .mustBeLast else .cannotBeLast)
  | .first expected =>
    require tokens i (expected == (i = 0)) (if expected then .mustBeFirst else .cannotBeFirst)
  | .after neighbour =>
    require tokens i (i ≠ 0) .cannotBeFirst
    let other ← previous tokens i
    require tokens i (← neighbour.admits other) (.expectedAfter neighbour.text)
  | .before neighbour =>
    require tokens i (i + 1 < tokens.length) .cannotBeLast
    let other ← get tokens (i + 1)
    require tokens i (← neighbour.admits other) (.expectedBefore neighbour.text)
  | .hasArgument => checkArgument tokens i token fun _ => pure ()
  | .argument kinds =>
    checkArgument tokens i token fun a =>
      require tokens i (a.kind ∈ kinds) (.unexpectedArgument kinds a.kind)
  | .group groups =>
    let found ← groupOf token
    require tokens i (found ∈ groups) (.unexpectedGroup groups found)
  | .kind name => require tokens i (token.kindName = name) (.unexpectedKind name token.kindName)

/-- Checks rules at a place up to the first that is broken. -/
def check (tokens : List Token) (i : ℕ) : List Rule → Walk Unit
  | [] => pure ()
  | rule :: more => do
    checkRule tokens i rule
    check tokens i more

/-- Whether there is a place and rules hold there.  A broken rule is no failure here. -/
def holds (tokens : List Token) (i : ℕ) (rules : List Rule) : Walk Bool :=
  if i < tokens.length then
    tryCatch ((fun _ => true) <$> check tokens i rules) fun
      | .refused _ => pure false
      | stop => throw stop
  else pure false

/-! ### Blocks -/

/-- The value of an argument that was found at a token. -/
def argumentValue (a : Argument) (token : Token) : Walk Value :=
  match Value.ofArgument a token.line with
  | .ok v => pure v
  | .error e => throw (.refused (.literal e))

/-- The literal at a place. -/
def literal (tokens : List Token) (i : ℕ) : Walk Value := do
  check tokens i [.argument [.text, .static, .dynamic]]
  let token ← tokenAt tokens i
  match token.argument? with
  | some a => argumentValue a token
  | none => fail tokens i .argumentRequired

/-- The operand at a place. -/
def operand (tokens : List Token) (i : ℕ) : Walk Operand := do
  let token ← tokenAt tokens i
  match token.kind with
  | .reference r => pure (.reference r)
  | .command ⟨.keyword .const, _⟩ => .literal <$> literal tokens i
  | .command ⟨.keyword .trueValue, _⟩ => pure (.reserved .trueValue)
  | .command ⟨.keyword .falseValue, _⟩ => pure (.reserved .falseValue)
  | .command ⟨.keyword .nullValue, _⟩ => pure (.reserved .nullValue)
  | .command ⟨_, some a⟩ => .literal <$> argumentValue a token
  | .command ⟨_, none⟩ => fail tokens i .notAValue

/-- Whether an `echo` goes on with the token at a place. -/
def goesOn (tokens : List Token) (i : ℕ) : Walk Bool := do
  if ← holds tokens i [.group [.value]] then
    return true
  holds tokens i [.hasArgument]

/-- The operands from a place on, and the place after them. -/
def values (tokens : List Token) (i : ℕ) : Walk (List Operand × ℕ) :=
  if _inside : i < tokens.length then do
    if ← goesOn tokens i then
      let o ← operand tokens i
      let (os, stop) ← values tokens (i + 1)
      return (o :: os, stop)
    return ([], i)
  else pure ([], i)
termination_by tokens.length - i

/-- The text of the argument of a token. -/
def textOf (token : Token) : Option String :=
  token.argument?.map fun a => Value.ofPayload a.payload

/-- The format of the `echo` at a place, and the place after it. -/
def format (tokens : List Token) (i : ℕ) : Walk (Option String × ℕ) := do
  let token ← get tokens i
  if ← holds tokens i [.argument [.text]] then
    check tokens (i + 1) [.group [.value]]
    return (textOf token, i + 1)
  if ← holds tokens (i + 1) [.kind "format", .group [.modifier]] then
    check tokens (i + 1) [.argument [.text]]
    let next ← get tokens (i + 1)
    return (textOf next, i + 2)
  return (none, i + 1)

/-- The node of the `echo` at a place, and the place after its block. -/
def echo (tokens : List Token) (i : ℕ) : Walk (Node × ℕ) := do
  check tokens i [.last false]
  let token ← get tokens i
  let (text, start) ← format tokens i
  let (os, stop) ← values tokens start
  match os with
  | [] => fail tokens i .missingArguments
  | os => return (.echo token text os, stop)

/-- The type that is declared at a place. -/
def declared (tokens : List Token) (i : ℕ) : Walk TypeTag := do
  check tokens i [.last false, .group Block.declaring, .before (.kind "var")]
  let token ← get tokens i
  match Block.declaredType? token with
  | some type => return type
  | none => fail tokens i (.unexpectedGroup Block.declaring .unknown)

/-- The variable at a place. -/
def target (tokens : List Token) (i : ℕ) : Walk Reference := do
  let token ← get tokens i
  match token.reference? with
  | some r => if r.sigil = .var then return r else fail tokens i .functionTarget
  | none => fail tokens i .functionTarget

/-- The initial value from a place on, and the place after it. -/
def initial (tokens : List Token) (i : ℕ) : Walk (Option Operand × ℕ) := do
  if ← holds tokens i [.kind "store", .group [.modifier], .before (.group [.value])] then
    let o ← operand tokens (i + 1)
    return (some o, i + 2)
  return (none, i)

/-- The node of the definition at a place, and the place after its block. -/
def define (tokens : List Token) (i : ℕ) : Walk (Node × ℕ) := do
  check tokens i [.last false]
  let type ← declared tokens (i + 1)
  let slot ← target tokens (i + 2)
  let (value, stop) ← initial tokens (i + 3)
  let token ← get tokens i
  return (.define token type slot value, stop)

/-- The text at a place, which must be right after a token of the given kind name. -/
def modifierText (tokens : List Token) (i : ℕ) (kindName : String) : Walk String := do
  check tokens i [.argument [.text], .after (.kind kindName)]
  let token ← get tokens i
  return (textOf token).getD ""

/-- The node at a place, and the place after its block. -/
def node (tokens : List Token) (i : ℕ) : Walk (Node × ℕ) := do
  let token ← get tokens i
  match token.kind with
  | .command ⟨.keyword .echo, _⟩ => echo tokens i
  | .command ⟨.keyword .define, _⟩ => define tokens i
  | .command ⟨.keyword .const, _⟩ => return (.const token (← literal tokens i), i + 1)
  | .command ⟨.keyword .format, _⟩ =>
    return (.format token (← modifierText tokens i "echo"), i + 1)
  | .command ⟨.keyword .store, _⟩ => return (.store token (← modifierText tokens i "var"), i + 1)
  | _ => return (.passthrough token, i + 1)

/-- The nodes from a place on. -/
def buildFrom (tokens : List Token) (i : ℕ) : Walk Tree :=
  if i < tokens.length then do
    let (first, stop) ← node tokens i
    if _ahead : i < stop then
      let nodes ← buildFrom tokens stop
      return first :: nodes
    else throw (.stalled i)
  else pure []
termination_by tokens.length - i

/-- The tree of some tokens, built with a classifier that knows nothing yet. -/
def build (tokens : List Token) : Except Stop Tree :=
  match (buildFrom tokens 0).run .new with
  | .ok tree _ => .ok tree
  | .error stop _ => .error stop

/-- A result of the work on lists as a result of the builder. -/
def lift {α : Type} (x : Except BuildError α) : Except Stop α :=
  x.mapError .refused

/-! ### Results of a walk -/

/-- A walk comes to a result, whatever groups are remembered when it starts. -/
def Gives {α : Type} (w : Walk α) (x : Except BuildError α) : Prop :=
  ∀ c, ∃ later, w.run c =
    match x with
    | .ok a => .ok a later
    | .error e => .error (.refused e) later

namespace Gives

variable {α β : Type} {w : Walk α} {f : α → Walk β} {x : Except BuildError α}
  {y : Except BuildError β} {a : α} {e : BuildError}

lemma pure (a : α) : Gives (Pure.pure a) (.ok a) :=
  fun c => ⟨c, rfl⟩

lemma refused (e : BuildError) : Gives (throw (.refused e) : Walk α) (.error e) :=
  fun c => ⟨c, rfl⟩

/-- After a step that succeeds, the result is that of the next one. -/
lemma bind_ok (h : Gives w (.ok a)) (hnext : Gives (f a) y) : Gives (w >>= f) y := by
  intro c
  obtain ⟨later, hw⟩ := h c
  obtain ⟨last, hf⟩ := hnext later
  refine ⟨last, ?_⟩
  rw [EStateM.run_bind, hw]
  exact hf

/-- After a step that fails nothing else is done. -/
lemma bind_error (h : Gives w (.error e)) : Gives (w >>= f) (.error e) := by
  intro c
  obtain ⟨later, hw⟩ := h c
  refine ⟨later, ?_⟩
  rw [EStateM.run_bind, hw]

lemma map (h : Gives w x) (g : α → β) : Gives (g <$> w) (x.map g) := by
  rw [map_eq_pure_bind]
  cases x with
  | error e => exact h.bind_error
  | ok a => exact h.bind_ok (.pure (g a))

end Gives

/-- The classifier knows every kind name by its group. -/
lemma classify_fst (c : Classifier) (kindName : String) :
    (c.classify kindName).1 = Group.ofKindName kindName := by
  unfold Classifier.classify
  split
  · next group hknown =>
    obtain ⟨front, back, hsplit, -⟩ := List.lookup_eq_some_iff.1 hknown
    exact c.sound (kindName, group) (by simp [hsplit])
  · rfl

/-- A token has the same group whenever it is asked for. -/
lemma gives_groupOf (t : Token) : Gives (groupOf t) (.ok t.group) := by
  intro c
  refine ⟨(c.classify t.kindName).2, ?_⟩
  rw [Token.group, ← classify_fst c]
  rfl

section

variable {tokens : List Token} {i : ℕ} {t : Token} {rest : List Token}

/-! ### Places among the tokens -/

lemma getElem?_of_drop (h : tokens.drop i = t :: rest) : tokens[i]? = some t := by
  rw [← List.head?_drop, h, List.head?_cons]

lemma drop_succ_of_drop (h : tokens.drop i = t :: rest) : tokens.drop (i + 1) = rest := by
  rw [← List.tail_drop, h, List.tail_cons]

lemma length_of_drop (h : tokens.drop i = t :: rest) :
    tokens.length = i + (rest.length + 1) := by
  have hlength := congrArg List.length h
  rw [List.length_drop, List.length_cons] at hlength
  omega

lemma gives_get (h : tokens[i]? = some t) : Gives (get tokens i) (.ok t) := by
  simp only [get, h]
  exact .pure t

lemma gives_tokenAt (h : tokens[i]? = some t) : Gives (tokenAt tokens i) (.ok t) := by
  simp only [tokenAt, h]
  exact .pure t

/-- A rule that is broken at a token is reported there. -/
lemma gives_fail {α : Type} (h : tokens[i]? = some t) (rule : BrokenRule) :
    Gives (fail tokens i rule) (Block.broken rule t : Except BuildError α) := by
  have hlt : i < tokens.length := (List.getElem?_eq_some_iff.1 h).1
  have hplace : min i (tokens.length - 1) = i := by omega
  rw [fail, hplace]
  exact (gives_get h).bind_ok (.refused _)

/-! ### Rules -/

lemma gives_require (h : tokens[i]? = some t) (condition : Bool) (rule : BrokenRule) :
    Gives (require tokens i condition rule)
      (if condition then .ok () else Block.broken rule t) := by
  cases condition with
  | true => exact .pure ()
  | false => exact gives_fail h rule

/-- What is required holds if it is no failure. -/
lemma isOk_require {condition : Prop} [Decidable condition] (rule : BrokenRule) (t : Token) :
    (if condition then .ok () else Block.broken rule t : Except BuildError Unit).isOk =
      decide condition := by
  split_ifs with h <;> simp [h, Block.broken, Except.isOk, Except.toBool]

lemma check_singleton (tokens : List Token) (i : ℕ) (rule : Rule) :
    check tokens i [rule] = checkRule tokens i rule := by
  rw [check, check, bind_pure_unit]

lemma gives_last (h : tokens.drop i = t :: rest) :
    Gives (checkRule tokens i (.last false))
      (if rest = [] then Block.broken .cannotBeLast t else .ok ()) := by
  have hlength := length_of_drop h
  have hplace := getElem?_of_drop h
  have hrequire := gives_require hplace (false == (tokens.length ≤ i + 1)) .cannotBeLast
  refine (gives_tokenAt hplace).bind_ok ?_
  cases rest with
  | nil => simpa [hlength] using hrequire
  | cons next more => simpa [hlength] using hrequire

lemma gives_admits_kind (other : Token) (name : String) :
    Gives ((Neighbour.kind name).admits other) (.ok (other.kindName = name)) :=
  .pure _

lemma gives_admits_group (other : Token) (groups : List Group) :
    Gives ((Neighbour.group groups).admits other) (.ok (other.group ∈ groups)) :=
  (gives_groupOf other).map _

lemma gives_after {before : Option Token} (h : tokens[i]? = some t)
    (hbefore : (tokens.take i).getLast? = before) (kindName : String) :
    Gives (checkRule tokens i (.after (.kind kindName)))
      (match before with
        | none => Block.broken .cannotBeFirst t
        | some other =>
          if other.kindName = kindName then .ok ()
          else Block.broken (.expectedAfter s!":{kindName}") t) := by
  refine (gives_tokenAt h).bind_ok ?_
  cases i with
  | zero =>
    obtain rfl : none = before := by simpa using hbefore
    exact (gives_fail h .cannotBeFirst).bind_error
  | succ j =>
    have hlt : j + 1 < tokens.length := (List.getElem?_eq_some_iff.1 h).1
    have hother : tokens[j]? = some (tokens.get ⟨j, by omega⟩) := by simp
    obtain rfl : some (tokens.get ⟨j, by omega⟩) = before := by
      rw [← hbefore, List.getLast?_take, if_neg (by omega), Nat.add_sub_cancel, hother]
      rfl
    have htext : (Neighbour.kind kindName).text = s!":{kindName}" := rfl
    refine (gives_require h true _).bind_ok ((gives_get hother).bind_ok ?_)
    refine (gives_admits_kind _ kindName).bind_ok ?_
    simpa [htext] using gives_require h
      ((tokens.get ⟨j, by omega⟩).kindName = kindName) (.expectedAfter s!":{kindName}")

lemma gives_before_of_last (h : tokens.drop i = [t]) (neighbour : Neighbour) :
    Gives (checkRule tokens i (.before neighbour)) (Block.broken .cannotBeLast t) := by
  have hlength := length_of_drop h
  have hplace := getElem?_of_drop h
  have hend : decide (i + 1 < tokens.length) = false := by simp [hlength]
  refine (gives_tokenAt hplace).bind_ok ?_
  dsimp only
  rw [hend]
  exact (gives_fail hplace .cannotBeLast).bind_error

lemma gives_before {next : Token} (h : tokens.drop i = t :: next :: rest) {neighbour : Neighbour}
    {admitted : Bool} (hadmits : Gives (neighbour.admits next) (.ok admitted)) :
    Gives (checkRule tokens i (.before neighbour))
      (if admitted then .ok () else Block.broken (.expectedBefore neighbour.text) t) := by
  have hlength := length_of_drop h
  have hplace := getElem?_of_drop h
  have hnext := gives_get (getElem?_of_drop (drop_succ_of_drop h))
  have hinside : decide (i + 1 < tokens.length) = true := by simp [hlength]
  refine (gives_tokenAt hplace).bind_ok ?_
  dsimp only
  rw [hinside]
  refine (gives_require hplace true _).bind_ok (hnext.bind_ok (hadmits.bind_ok ?_))
  exact gives_require hplace admitted _

lemma gives_hasArgument (h : tokens[i]? = some t) :
    Gives (checkRule tokens i .hasArgument)
      (if t.argument?.isSome then .ok () else Block.broken .argumentRequired t) := by
  refine (gives_tokenAt h).bind_ok ?_
  simp only [checkArgument]
  cases t.argument? with
  | none => exact gives_fail h .argumentRequired
  | some a => exact .pure ()

lemma gives_argument (h : tokens[i]? = some t) (kinds : List ArgKind) :
    Gives (checkRule tokens i (.argument kinds))
      ((Block.requireArgument kinds t).map fun _ => ()) := by
  refine (gives_tokenAt h).bind_ok ?_
  simp only [checkArgument, Block.requireArgument]
  cases t.argument? with
  | none => exact gives_fail h .argumentRequired
  | some a =>
    have hrequire := gives_require h (a.kind ∈ kinds) (.unexpectedArgument kinds a.kind)
    by_cases hkind : a.kind ∈ kinds
    · simpa [hkind, Except.map] using hrequire
    · simpa [hkind, Except.map, Block.broken] using hrequire

lemma gives_group (h : tokens[i]? = some t) (groups : List Group) :
    Gives (checkRule tokens i (.group groups))
      (if t.group ∈ groups then .ok () else Block.broken (.unexpectedGroup groups t.group) t) := by
  refine (gives_tokenAt h).bind_ok ((gives_groupOf t).bind_ok ?_)
  simpa using gives_require h (t.group ∈ groups) (.unexpectedGroup groups t.group)

lemma gives_kind (h : tokens[i]? = some t) (name : String) :
    Gives (checkRule tokens i (.kind name))
      (if t.kindName = name then .ok () else Block.broken (.unexpectedKind name t.kindName) t) := by
  refine (gives_tokenAt h).bind_ok ?_
  simpa using gives_require h (t.kindName = name) (.unexpectedKind name t.kindName)

/-- Rules hold at a token if they are checked without failure. -/
lemma Gives.holds {rules : List Rule} {x : Except BuildError Unit} (h : tokens[i]? = some t)
    (hcheck : Gives (check tokens i rules) x) : Gives (holds tokens i rules) (.ok x.isOk) := by
  have hlt : i < tokens.length := (List.getElem?_eq_some_iff.1 h).1
  intro c
  obtain ⟨later, hlater⟩ := (hcheck.map fun _ => true) c
  refine ⟨later, ?_⟩
  rw [Cursor.holds, if_pos hlt, EStateM.run_tryCatch, hlater]
  cases x with
  | error e => rfl
  | ok _ => rfl

/-- No rules hold after the last token. -/
lemma gives_holds_of_drop (h : tokens.drop i = []) (rules : List Rule) :
    Gives (holds tokens i rules) (.ok false) := by
  rw [List.drop_eq_nil_iff] at h
  rw [holds, if_neg (by omega)]
  exact .pure false

/-! ### Operands -/

lemma gives_argumentValue (a : Argument) (t : Token) :
    Gives (argumentValue a t) (Block.argumentValue a t) := by
  unfold argumentValue Block.argumentValue
  cases Value.ofArgument a t.line with
  | error e => exact .refused _
  | ok v => exact .pure v

lemma gives_literal (h : tokens[i]? = some t) :
    Gives (literal tokens i) (Block.requireLiteral t) := by
  have hcheck := gives_argument h [.text, .static, .dynamic]
  rw [literal, check_singleton, Block.requireLiteral]
  cases hread : Block.requireArgument [.text, .static, .dynamic] t with
  | error e =>
    rw [hread] at hcheck
    exact hcheck.bind_error
  | ok a =>
    rw [hread] at hcheck
    obtain ⟨harg, -⟩ := Block.requireArgument_eq_ok_iff.1 hread
    refine hcheck.bind_ok ((gives_tokenAt h).bind_ok ?_)
    simpa [harg] using gives_argumentValue a t

lemma gives_operand (h : tokens[i]? = some t) : Gives (operand tokens i) (Block.operand t) := by
  have hliteral := (gives_literal h).map Operand.literal
  have hargument (a : Argument) := (gives_argumentValue a t).map Operand.literal
  have hnone : Gives (fail tokens i .notAValue)
      (Block.broken .notAValue t : Except BuildError Operand) := gives_fail h .notAValue
  refine (gives_tokenAt h).bind_ok ?_
  unfold Block.operand
  -- each kind of token is one case on both sides
  split <;> simp_all [Gives.pure]

lemma gives_goesOn (h : tokens[i]? = some t) :
    Gives (goesOn tokens i) (.ok (Block.isOperand t)) := by
  have hgroups := gives_group h [.value]
  have harguments := gives_hasArgument h
  rw [← check_singleton] at hgroups harguments
  have hvalue := hgroups.holds h
  have hlast := harguments.holds h
  rw [isOk_require] at hvalue hlast
  rw [goesOn, Block.isOperand]
  by_cases hgroup : t.group = .value
  · simp only [hgroup, List.mem_singleton, decide_true] at hvalue
    refine hvalue.bind_ok ?_
    simpa [hgroup] using Gives.pure true
  · simp only [hgroup, List.mem_singleton, decide_false] at hvalue
    have hother : (t.group == .value) = false := by simpa using hgroup
    refine hvalue.bind_ok ?_
    simpa [hother] using hlast

/-- The operands from a place on are those of the longest run of tokens there. -/
lemma gives_values (h : tokens.drop i = rest) :
    Gives (values tokens i) ((Block.operands (rest.takeWhile Block.isOperand)).map fun os =>
      (os, i + (rest.takeWhile Block.isOperand).length)) := by
  induction rest generalizing i with
  | nil =>
    rw [values, dif_neg (by simpa using h)]
    exact .pure _
  | cons t more ih =>
    have hplace := getElem?_of_drop h
    have hgoesOn := gives_goesOn hplace
    rw [values, dif_pos (List.getElem?_eq_some_iff.1 hplace).1]
    by_cases hoperand : Block.isOperand t = true
    · have hoperands := gives_operand hplace
      have hmore := ih (drop_succ_of_drop h)
      rw [hoperand] at hgoesOn
      rw [List.takeWhile_cons_of_pos hoperand, Block.operands]
      refine hgoesOn.bind_ok ?_
      cases ho : Block.operand t with
      | error e =>
        rw [ho] at hoperands
        exact hoperands.bind_error
      | ok o =>
        rw [ho] at hoperands
        refine hoperands.bind_ok ?_
        cases hos : Block.operands (more.takeWhile Block.isOperand) with
        | error e =>
          rw [hos] at hmore
          exact hmore.bind_error
        | ok os =>
          rw [hos] at hmore
          refine hmore.bind_ok ?_
          have hstop (n : ℕ) : i + 1 + n = i + (n + 1) := by omega
          simpa [hstop, Except.map] using Gives.pure (o :: os, _)
    · rw [Bool.not_eq_true] at hoperand
      rw [hoperand] at hgoesOn
      rw [List.takeWhile_cons_of_neg (by simp [hoperand])]
      exact hgoesOn.bind_ok (.pure _)

/-! ### Blocks -/

/-- The place after the first part of what stands at a place. -/
lemma drop_append_of_drop {front : List Token} (h : tokens.drop i = front ++ rest) :
    tokens.drop (i + front.length) = rest := by
  rw [← List.drop_drop, h, List.drop_left]

/-- Modifiers are known by their kind names. -/
lemma gives_holds_modifier (h : tokens[i]? = some t) {name : String}
    (hname : Group.ofKindName name = .modifier) {rules : List Rule} {x : Except BuildError Unit}
    (hrules : Gives (check tokens i rules) x) :
    Gives (holds tokens i (.kind name :: .group [.modifier] :: rules))
      (.ok (decide (t.kindName = name) && x.isOk)) := by
  have hkinds := gives_kind h name
  have hgroups := gives_group h [.modifier]
  by_cases hkind : t.kindName = name
  · have hgroup : t.group = .modifier := by rw [Token.group, hkind, hname]
    rw [if_pos hkind] at hkinds
    rw [if_pos (by simp [hgroup])] at hgroups
    rw [decide_eq_true hkind, Bool.true_and]
    exact (hkinds.bind_ok (hgroups.bind_ok hrules)).holds h
  · rw [if_neg hkind] at hkinds
    rw [decide_eq_false hkind, Bool.false_and]
    have hcheck : Gives (check tokens i (.kind name :: .group [.modifier] :: rules)) (.error _) :=
      hkinds.bind_error
    exact hcheck.holds h

lemma gives_holds_format (h : tokens[i]? = some t) :
    Gives (holds tokens i [.kind "format", .group [.modifier]])
      (.ok (t.kindName = "format")) := by
  have hname : Group.ofKindName "format" = .modifier := by decide
  have hnone : Gives (check tokens i []) (.ok ()) := .pure ()
  simpa [Except.isOk, Except.toBool] using gives_holds_modifier h hname hnone

/-- An `echo` without a text of its own takes the text of a `format` that comes next. -/
lemma echoFormat_of_error {next : Token} {e : BuildError}
    (h : Block.requireArgument [.text] t = .error e) :
    Block.echoFormat t (next :: rest) =
      if next.kindName = "format" then
        (Block.requireText next).map fun text => ⟨some text, [next], rest⟩
      else .ok ⟨none, [], next :: rest⟩ := by
  simp only [Block.echoFormat]
  split
  · next payload harg => simp [Block.requireArgument, harg] at h
  · cases Block.requireText next <;> rfl

/-- The text of a token is what is found there. -/
lemma textOf_eq {kinds : List ArgKind} {a : Argument}
    (h : Block.requireArgument kinds t = .ok a) : textOf t = some (Value.ofPayload a.payload) := by
  obtain ⟨harg, -⟩ := Block.requireArgument_eq_ok_iff.1 h
  rw [textOf, harg]
  rfl

/-- The format of an `echo` is found at its place. -/
lemma gives_format {next : Token} (h : tokens.drop i = t :: next :: rest) :
    Gives (format tokens i) ((Block.echoFormat t (next :: rest)).map fun f =>
      (f.value, i + 1 + f.tokens.length)) := by
  have hplace := getElem?_of_drop h
  have hnext := getElem?_of_drop (drop_succ_of_drop h)
  have hown := gives_argument hplace [.text]
  rw [← check_singleton] at hown
  rw [format, check_singleton, check_singleton]
  refine (gives_get hplace).bind_ok ((hown.holds hplace).bind_ok ?_)
  cases hread : Block.requireArgument [.text] t with
  | ok a =>
    -- the `echo` has a text of its own, so a value must come next
    obtain ⟨harg, hkind⟩ := Block.requireArgument_eq_ok_iff.1 hread
    obtain ⟨kind, payload⟩ := a
    obtain rfl : kind = .text := by simpa using hkind
    have hgroup := gives_group hnext [.value]
    by_cases hvalue : next.group = .value
    · rw [if_pos (by simp [hvalue])] at hgroup
      simp only [Block.echoFormat, harg, hvalue, if_true]
      refine hgroup.bind_ok ?_
      rw [textOf_eq hread]
      exact .pure _
    · rw [if_neg (by simp [hvalue])] at hgroup
      simp only [Block.echoFormat, harg, hvalue, if_false]
      exact hgroup.bind_error
  | error e =>
    refine (gives_holds_format hnext).bind_ok ?_
    rw [echoFormat_of_error hread, Block.requireText]
    by_cases hname : next.kindName = "format"
    · have htext := gives_argument hnext [.text]
      simp only [hname, if_true, decide_true]
      cases hargument : Block.requireArgument [.text] next with
      | error e' =>
        rw [hargument] at htext
        exact htext.bind_error
      | ok a =>
        rw [hargument] at htext
        refine htext.bind_ok ((gives_get hnext).bind_ok ?_)
        rw [textOf_eq hargument]
        exact .pure _
    · simp only [hname, if_false, decide_false]
      exact .pure _

/-- The block of an `echo` is taken at its place. -/
lemma gives_echo (h : tokens.drop i = t :: rest) :
    Gives (echo tokens i) ((Block.echo t rest).map fun b => (b.node, i + 1 + b.tail.length)) := by
  have hplace := getElem?_of_drop h
  have hlast := gives_last h
  rw [echo, check_singleton, Block.echo]
  cases rest with
  | nil => exact hlast.bind_error
  | cons next more =>
    have hformats := gives_format h
    refine hlast.bind_ok ((gives_get hplace).bind_ok ?_)
    cases hformat : Block.echoFormat t (next :: more) with
    | error e =>
      rw [hformat] at hformats
      exact hformats.bind_error
    | ok f =>
      rw [hformat] at hformats
      refine hformats.bind_ok ?_
      have hstart : tokens.drop (i + 1 + f.tokens.length) = f.rest := by
        apply drop_append_of_drop
        rw [drop_succ_of_drop h, Block.echoFormat_append hformat]
      have hvalues := gives_values hstart
      dsimp only
      cases hoperands : Block.operands (f.rest.takeWhile Block.isOperand) with
      | error e =>
        rw [hoperands] at hvalues
        exact hvalues.bind_error
      | ok os =>
        rw [hoperands] at hvalues
        refine hvalues.bind_ok ?_
        cases os with
        | nil => exact gives_fail hplace .missingArguments
        | cons o os => simpa [Nat.add_assoc, Except.map] using Gives.pure (_, _)

/-- The type of a definition is found at its place. -/
lemma gives_declared {other : Token} (h : tokens.drop i = t :: other :: rest) :
    Gives (declared tokens i) (Block.requireType t other) := by
  have hplace := getElem?_of_drop h
  have hlast := gives_last h
  have hgroups := gives_group hplace Block.declaring
  have hbefore := gives_before h (gives_admits_kind other "var")
  rw [declared, check, check, check_singleton, Block.requireType]
  by_cases hgroup : t.group ∈ Block.declaring
  · rw [if_pos hgroup] at hgroups
    rw [if_neg (not_not.2 hgroup)]
    by_cases hvar : other.kindName = "var"
    · rw [if_pos (by simp [hvar])] at hbefore
      rw [if_neg (not_not.2 hvar)]
      refine (hlast.bind_ok (hgroups.bind_ok hbefore)).bind_ok ((gives_get hplace).bind_ok ?_)
      cases Block.declaredType? t with
      | none => exact gives_fail hplace _
      | some type => exact .pure type
    · rw [if_neg (by simp [hvar])] at hbefore
      rw [if_pos hvar]
      exact (hlast.bind_ok (hgroups.bind_ok hbefore)).bind_error
  · rw [if_neg hgroup] at hgroups
    rw [if_pos hgroup]
    exact (hlast.bind_ok hgroups.bind_error).bind_error

/-- A type cannot be the last token. -/
lemma gives_declared_of_last (h : tokens.drop i = [t]) :
    Gives (declared tokens i) (Block.broken .cannotBeLast t) := by
  rw [declared, check]
  exact (gives_last h).bind_error.bind_error

/-- The target of a definition is found at its place. -/
lemma gives_target (h : tokens[i]? = some t) :
    Gives (target tokens i) (Block.requireVariable t) := by
  refine (gives_get h).bind_ok ?_
  rw [Token.reference?, Block.requireVariable]
  cases t.kind with
  | command c => exact gives_fail h .functionTarget
  | reference r =>
    dsimp only
    split_ifs
    · exact .pure r
    · exact gives_fail h .functionTarget

/-- The initial value of a definition is found at its place. -/
lemma gives_initial (h : tokens.drop i = rest) :
    Gives (initial tokens i) ((Block.initialValue rest).map fun f =>
      (f.value, i + f.tokens.length)) := by
  have hname : Group.ofKindName "store" = .modifier := by decide
  match rest, h with
  | [], h => exact (gives_holds_of_drop h _).bind_ok (.pure _)
  | [store], h =>
    have hplace := getElem?_of_drop h
    have hbefore := gives_before_of_last h (.group [.value])
    rw [← check_singleton] at hbefore
    have hholds := gives_holds_modifier hplace hname hbefore
    rw [show (Block.broken .cannotBeLast store : Except BuildError Unit).isOk = false from rfl,
      Bool.and_false] at hholds
    exact hholds.bind_ok (.pure _)
  | store :: value :: more, h =>
    have hplace := getElem?_of_drop h
    have hvalue := getElem?_of_drop (drop_succ_of_drop h)
    have hbefore := gives_before h (gives_admits_group value [.value])
    rw [← check_singleton] at hbefore
    have hholds : Gives (holds tokens i [.kind "store", .group [.modifier],
        .before (.group [.value])])
        (.ok (store.kindName = "store" ∧ value.group = .value)) := by
      simpa [isOk_require] using gives_holds_modifier hplace hname hbefore
    rw [initial, Block.initialValue]
    by_cases hboth : store.kindName = "store" ∧ value.group = .value
    · have hoperands := gives_operand hvalue
      rw [decide_eq_true hboth] at hholds
      rw [if_pos hboth]
      refine hholds.bind_ok ?_
      cases hoperand : Block.operand value with
      | error e =>
        rw [hoperand] at hoperands
        exact hoperands.bind_error
      | ok o =>
        rw [hoperand] at hoperands
        exact hoperands.bind_ok (.pure _)
    · rw [decide_eq_false hboth] at hholds
      rw [if_neg hboth]
      exact hholds.bind_ok (.pure _)

/-- The block of a definition is taken at its place. -/
lemma gives_define (h : tokens.drop i = t :: rest) :
    Gives (define tokens i)
      ((Block.define t rest).map fun b => (b.node, i + 1 + b.tail.length)) := by
  have hplace := getElem?_of_drop h
  have hlast := gives_last h
  have hafter := drop_succ_of_drop h
  rw [define, check_singleton]
  match rest, hafter with
  | [], _ => exact hlast.bind_error
  | [typeToken], hafter => exact hlast.bind_ok (gives_declared_of_last hafter).bind_error
  | typeToken :: other :: more, hafter =>
    have htypes := gives_declared hafter
    have htargets := gives_target (getElem?_of_drop (drop_succ_of_drop hafter))
    have hinitials := gives_initial (drop_succ_of_drop (drop_succ_of_drop hafter))
    rw [Block.define]
    refine hlast.bind_ok ?_
    cases htype : Block.requireType typeToken other with
    | error e =>
      rw [htype] at htypes
      exact htypes.bind_error
    | ok type =>
      rw [htype] at htypes
      refine htypes.bind_ok ?_
      cases hslot : Block.requireVariable other with
      | error e =>
        rw [hslot] at htargets
        exact htargets.bind_error
      | ok slot =>
        rw [hslot] at htargets
        refine htargets.bind_ok ?_
        cases hvalue : Block.initialValue more with
        | error e =>
          rw [hvalue] at hinitials
          exact hinitials.bind_error
        | ok f =>
          rw [hvalue] at hinitials
          refine hinitials.bind_ok ((gives_get hplace).bind_ok ?_)
          have hstop (n : ℕ) : i + 1 + 1 + 1 + n = i + 1 + (n + 1 + 1) := by omega
          simpa [hstop, Except.map] using Gives.pure (_, _)

/-- The text of a modifier is found at its place. -/
lemma gives_modifierText {before : Option Token} (h : tokens[i]? = some t)
    (hbefore : (tokens.take i).getLast? = before) (kindName : String) :
    Gives (modifierText tokens i kindName) (Block.modifierText before t kindName) := by
  have htexts := gives_argument h [.text]
  have hafter := gives_after h hbefore kindName
  rw [modifierText, check, check_singleton]
  simp only [Block.modifierText, Block.requireText]
  cases htext : Block.requireArgument [.text] t with
  | error e =>
    rw [htext] at htexts
    exact htexts.bind_error.bind_error
  | ok a =>
    rw [htext] at htexts
    cases before with
    | none => exact (htexts.bind_ok hafter).bind_error
    | some other =>
      dsimp only at hafter ⊢
      by_cases hkind : other.kindName = kindName
      · rw [if_pos hkind] at hafter ⊢
        refine (htexts.bind_ok hafter).bind_ok ((gives_get h).bind_ok ?_)
        rw [textOf_eq htext]
        exact .pure _
      · rw [if_neg hkind] at hafter ⊢
        exact (htexts.bind_ok hafter).bind_error

/-- After a block of a single token comes the next place. -/
lemma Gives.single {α : Type} {w : Walk α} {x : Except BuildError α} (h : Gives w x)
    (f : α → Node) :
    Gives (w >>= fun a => Pure.pure (f a, i + 1))
      (((x.map f).map fun node => (⟨node, [], rest⟩ : Block)).map fun b =>
        (b.node, i + 1 + b.tail.length)) := by
  cases x with
  | error e => exact h.bind_error
  | ok a => exact h.bind_ok (.pure _)

/-- The block that starts at a place is taken there. -/
lemma gives_node {before : Option Token} (h : tokens.drop i = t :: rest)
    (hbefore : (tokens.take i).getLast? = before) :
    Gives (node tokens i)
      ((Block.next before t rest).map fun b => (b.node, i + 1 + b.tail.length)) := by
  have hplace := getElem?_of_drop h
  refine (gives_get hplace).bind_ok ?_
  unfold Block.next Block.single
  split <;> simp_all only []
  · exact gives_echo h
  · exact gives_define h
  · exact (gives_literal hplace).single (.const t)
  · exact (gives_modifierText hplace hbefore "echo").single (.format t)
  · exact (gives_modifierText hplace hbefore "var").single (.store t)
  · exact .pure _

/-- The nodes from a place on are those of the tokens there. -/
lemma gives_buildFrom {before : Option Token} (h : tokens.drop i = rest)
    (hbefore : (tokens.take i).getLast? = before) :
    Gives (buildFrom tokens i) (Tree.ofTokensAfter before rest) := by
  -- the induction is on the length, as a block takes several tokens at once
  induction hlength : rest.length using Nat.strong_induction_on generalizing i before rest with
  | _ n ih =>
    subst hlength
    cases rest with
    | nil =>
      have hle := List.drop_eq_nil_iff.1 h
      rw [buildFrom, if_neg (by omega), Tree.ofTokensAfter]
      exact .pure []
    | cons t more =>
      have hlt : i < tokens.length := by
        have := length_of_drop h
        omega
      have hnode := gives_node h hbefore
      rw [buildFrom, if_pos hlt, Tree.ofTokensAfter_cons]
      cases hnext : Block.next before t more with
      | error e =>
        rw [hnext] at hnode
        exact hnode.bind_error
      | ok b =>
        rw [hnext] at hnode
        have hsplit := Block.tail_append_rest hnext
        have hdrop : tokens.drop (i + 1 + b.tail.length) = b.rest := by
          apply drop_append_of_drop
          rw [drop_succ_of_drop h, hsplit]
        have htake : tokens.take (i + 1 + b.tail.length) = tokens.take i ++ (t :: b.tail) := by
          rw [Nat.add_assoc, List.take_add, h, ← hsplit, Nat.add_comm 1, List.take_succ_cons,
            List.take_left]
        have hlast : (tokens.take (i + 1 + b.tail.length)).getLast? = (t :: b.tail).getLast? := by
          rw [htake, List.getLast?_append_of_ne_nil _ (List.cons_ne_nil t b.tail)]
        have hrest := ih b.rest.length (Block.length_rest_lt hnext) hdrop hlast rfl
        have hahead : i < i + 1 + b.tail.length := by omega
        refine hnode.bind_ok ?_
        simp only [dif_pos hahead]
        exact hrest.map (b.node :: ·)

end

/-- The builder gives the tree of the tokens, or the error for which there is none. -/
lemma build_eq (tokens : List Token) : build tokens = lift (Tree.ofTokens tokens) := by
  have hgives : Gives (buildFrom tokens 0) (Tree.ofTokens tokens) := gives_buildFrom rfl rfl
  obtain ⟨later, hrun⟩ := hgives .new
  rw [build, hrun]
  cases Tree.ofTokens tokens <;> rfl

end ColonScript.Cursor
