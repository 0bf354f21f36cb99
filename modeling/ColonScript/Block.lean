import ColonScript.Node
import ColonScript.Node.Violation

/-!
# Blocks

Tokens are taken in blocks from left to right, and each block gives one node.  The first token
of a block decides its rule:

* an `echo` takes its format, if it has one, and the longest run of operands after it;
* a `define` takes a type, a variable and, if they follow, a `store` and a value;
* every other token is a block of its own.

The first rule that is broken ends the work, and no tree is given.  `tail_append_rest` says that
the blocks lose no token.
-/

namespace ColonScript

/-- A node, the tokens that it has taken after its first one, and the tokens after those. -/
structure Block where
  node : Node
  tail : List Token
  rest : List Token

namespace Block

/-- The failure of a rule at a token. -/
def broken {α : Type} (rule : BrokenRule) (token : Token) : Except BuildError α :=
  .error (.violation (.ofToken rule token))

/-- The value of an argument that was found at a token. -/
def argumentValue (a : Argument) (token : Token) : Except BuildError Value :=
  match Value.ofArgument a token.line with
  | .ok v => .ok v
  | .error e => .error (.literal e)

/-- The argument of a token, which must be of one of the given kinds. -/
def requireArgument (kinds : List ArgKind) (token : Token) : Except BuildError Argument :=
  match token.argument? with
  | none => broken .argumentRequired token
  | some a => if a.kind ∈ kinds then .ok a else broken (.unexpectedArgument kinds a.kind) token

/-- The text that a token has as its argument. -/
def requireText (token : Token) : Except BuildError String :=
  match requireArgument [.text] token with
  | .error e => .error e
  | .ok a => .ok (Value.ofPayload a.payload)

/-- The literal that a token has as its argument. -/
def requireLiteral (token : Token) : Except BuildError Value :=
  match requireArgument [.text, .static, .dynamic] token with
  | .error e => .error e
  | .ok a => argumentValue a token

/-! ### Operands -/

/-- Whether a token is taken as an operand: it is a value or it has an argument. -/
def isOperand (token : Token) : Bool :=
  token.group == .value || token.argument?.isSome

/-- The operand that a token stands for. -/
def operand (token : Token) : Except BuildError Operand :=
  match token.kind with
  | .reference r => .ok (.reference r)
  | .command ⟨.keyword .const, _⟩ => (requireLiteral token).map .literal
  | .command ⟨.keyword .trueValue, _⟩ => .ok (.reserved .trueValue)
  | .command ⟨.keyword .falseValue, _⟩ => .ok (.reserved .falseValue)
  | .command ⟨.keyword .nullValue, _⟩ => .ok (.reserved .nullValue)
  | .command ⟨_, some a⟩ => (argumentValue a token).map .literal
  | .command ⟨_, none⟩ => broken .notAValue token

/-- The operands that some tokens stand for. -/
def operands : List Token → Except BuildError (List Operand)
  | [] => .ok []
  | token :: more =>
    match operand token with
    | .error e => .error e
    | .ok o => (operands more).map (o :: ·)

/-! ### The rule of an echo -/

/-- Something read from the front of some tokens, the tokens that it has taken and the rest. -/
structure Taken (α : Type) where
  value : α
  tokens : List Token
  rest : List Token

/-- The format of an `echo` token: its own text, which a value must follow, or else the text of a
`format` token right after it. -/
def echoFormat (token : Token) : List Token → Except BuildError (Taken (Option String))
  | [] => broken .cannotBeLast token
  | next :: more =>
    match token.argument? with
    | some ⟨.text, payload⟩ =>
      if next.group = .value then .ok ⟨some (Value.ofPayload payload), [], next :: more⟩
      else broken (.unexpectedGroup [.value] next.group) next
    | _ =>
      if next.kindName = "format" then
        match requireText next with
        | .error e => .error e
        | .ok text => .ok ⟨some text, [next], more⟩
      else .ok ⟨none, [], next :: more⟩

/-- The block of an `echo` token. -/
def echo (token : Token) (rest : List Token) : Except BuildError Block :=
  match echoFormat token rest with
  | .error e => .error e
  | .ok format =>
    match operands (format.rest.takeWhile isOperand) with
    | .error e => .error e
    | .ok [] => broken .missingArguments token
    | .ok values => .ok {
        node := .echo token format.value values
        tail := format.tokens ++ format.rest.takeWhile isOperand
        rest := format.rest.dropWhile isOperand }

/-! ### The rule of a definition -/

/-- The type that a token declares. -/
def declaredType? (token : Token) : Option TypeTag :=
  match token.kind with
  | .command ⟨.keyword .func, _⟩ | .command ⟨.keyword .fn, _⟩ => some .fn
  | .command ⟨.keyword .static, _⟩ => some .static
  | .command ⟨.keyword .dynamic, _⟩ => some .dynamic
  | .command ⟨.keyword .text, _⟩ => some .text
  | .command ⟨.keyword .list, _⟩ => some .list
  | .command ⟨.keyword .dict, _⟩ => some .dict
  | .command ⟨.keyword .obj, _⟩ => some .obj
  | _ => none

/-- The groups of tokens that declare a type. -/
def declaring : List Group := [.dataType, .dataStructure]

/-- The type that a token declares for the target after it. -/
def requireType (token target : Token) : Except BuildError TypeTag :=
  if token.group ∉ declaring then broken (.unexpectedGroup declaring token.group) token
  else if target.kindName ≠ "var" then broken (.expectedBefore ":var") token
  else match declaredType? token with
    | some type => .ok type
    | none => broken (.unexpectedGroup declaring .unknown) token

/-- The variable that a token refers to. -/
def requireVariable (token : Token) : Except BuildError Reference :=
  match token.kind with
  | .reference r => if r.sigil = .var then .ok r else broken .functionTarget token
  | .command _ => broken .functionTarget token

/-- The initial value of a definition: a `store` and a value, if these come next. -/
def initialValue : List Token → Except BuildError (Taken (Option Operand))
  | store :: value :: more =>
    if store.kindName = "store" ∧ value.group = .value then
      match operand value with
      | .error e => .error e
      | .ok initial => .ok ⟨some initial, [store, value], more⟩
    else .ok ⟨none, [], store :: value :: more⟩
  | tokens => .ok ⟨none, [], tokens⟩

/-- The block of a `define` token. -/
def define (token : Token) : List Token → Except BuildError Block
  | [] => broken .cannotBeLast token
  | [typeToken] => broken .cannotBeLast typeToken
  | typeToken :: target :: more =>
    match requireType typeToken target, requireVariable target, initialValue more with
    | .error e, _, _ => .error e
    | .ok _, .error e, _ => .error e
    | .ok _, .ok _, .error e => .error e
    | .ok type, .ok slot, .ok initial => .ok {
        node := .define token type slot initial.value
        tail := typeToken :: target :: initial.tokens
        rest := initial.rest }

/-! ### All rules -/

/-- The text of a token that must stand right after a token of the given kind name. -/
def modifierText (before : Option Token) (token : Token) (kindName : String) :
    Except BuildError String :=
  match requireText token, before with
  | .error e, _ => .error e
  | .ok _, none => broken .cannotBeFirst token
  | .ok text, some t =>
    if t.kindName = kindName then .ok text else broken (.expectedAfter s!":{kindName}") token

/-- The node of a token that is a block of its own. -/
def single (before : Option Token) (token : Token) : Except BuildError Node :=
  match token.kind with
  | .command ⟨.keyword .const, _⟩ => (requireLiteral token).map (.const token)
  | .command ⟨.keyword .format, _⟩ => (modifierText before token "echo").map (.format token)
  | .command ⟨.keyword .store, _⟩ => (modifierText before token "var").map (.store token)
  | _ => .ok (.passthrough token)

/-- The block that starts with the given token, between the token before it and those after. -/
def next (before : Option Token) (token : Token) (rest : List Token) : Except BuildError Block :=
  match token.kind with
  | .command ⟨.keyword .echo, _⟩ => echo token rest
  | .command ⟨.keyword .define, _⟩ => define token rest
  | _ => (single before token).map (⟨·, [], rest⟩)

/-! ### Blocks lose no token -/

theorem echoFormat_append {token : Token} {rest : List Token} {t : Taken (Option String)}
    (hmade : echoFormat token rest = .ok t) : t.tokens ++ t.rest = rest := by
  unfold echoFormat at hmade
  split at hmade
  · cases hmade
  · split at hmade
    · split at hmade
      · cases hmade; rfl
      · cases hmade
    · split at hmade
      · split at hmade
        · cases hmade
        · cases hmade; rfl
      · cases hmade; rfl

theorem echo_append {token : Token} {rest : List Token} {b : Block}
    (hmade : echo token rest = .ok b) : b.tail ++ b.rest = rest := by
  unfold echo at hmade
  split at hmade
  · cases hmade
  · next format hstart =>
    split at hmade
    · cases hmade
    · cases hmade
    · cases hmade
      simp [List.append_assoc, List.takeWhile_append_dropWhile, echoFormat_append hstart]

theorem initialValue_append {rest : List Token} {t : Taken (Option Operand)}
    (hmade : initialValue rest = .ok t) : t.tokens ++ t.rest = rest := by
  unfold initialValue at hmade
  split at hmade
  · split at hmade
    · split at hmade
      · cases hmade
      · cases hmade; rfl
    · cases hmade; rfl
  · cases hmade; rfl

theorem define_append {token : Token} {rest : List Token} {b : Block}
    (hmade : define token rest = .ok b) : b.tail ++ b.rest = rest := by
  unfold define at hmade
  split at hmade
  · cases hmade
  · cases hmade
  · split at hmade
    · cases hmade
    · cases hmade
    · cases hmade
    · next hstart =>
      cases hmade
      simp [initialValue_append hstart]

/-- The tokens that a block has taken and the rest make up the tokens after its first one. -/
theorem tail_append_rest {before : Option Token} {token : Token} {rest : List Token} {b : Block}
    (hmade : next before token rest = .ok b) : b.tail ++ b.rest = rest := by
  unfold next at hmade
  split at hmade
  · exact echo_append hmade
  · exact define_append hmade
  · cases hsingle : single before token with
    | error e => simp [hsingle, Except.map] at hmade
    | ok node =>
      simp only [hsingle, Except.map, Except.ok.injEq] at hmade
      subst hmade
      rfl

/-- The rest after a block is shorter than the tokens from the block on. -/
theorem length_rest_lt {before : Option Token} {token : Token} {rest : List Token} {b : Block}
    (hmade : next before token rest = .ok b) : b.rest.length < (token :: rest).length := by
  rw [← tail_append_rest hmade, List.length_cons, List.length_append]
  omega

end Block

/-! ### Trees -/

namespace Tree

/-- The tree of some tokens, given the token before them. -/
def ofTokensAfter (before : Option Token) (tokens : List Token) : Except BuildError Tree :=
  match tokens with
  | [] => .ok []
  | token :: rest =>
    match _hmade : Block.next before token rest with
    | .error e => .error e
    | .ok b => (ofTokensAfter (some (b.tail.getLastD token)) b.rest).map (b.node :: ·)
termination_by tokens.length
decreasing_by exact Block.length_rest_lt _hmade

/-- The tree of some tokens. -/
def ofTokens (tokens : List Token) : Except BuildError Tree :=
  ofTokensAfter none tokens

end Tree

end ColonScript
