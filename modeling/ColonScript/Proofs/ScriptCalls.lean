import Mathlib.Data.List.Chain
import ColonScript.Proofs.BlockGrammar
import ColonScript.Proofs.Escaping
import ColonScript.Script

/-!
# Calls of a script

A script is written by calls, most of which are meant as one statement each.  A call only puts its
tokens after those of the calls before it, and nothing stands between them, so it depends on the
tokens themselves whether a block ends where the next call begins.

`Script.nodes` gives the tree that the calls are meant as: one node for each `echo` and each
definition.  `Script.joined` gives the tree that their tokens are built into.  The two differ
where an `echo` with a format comes after another `echo` and at most newlines stand between: its
first token carries an argument, and an `echo` goes on with everything that carries one.  So the
earlier `echo` takes the format as a text to print, and the values after it as well.

Calls are always built into `joined` (`Script.builds`), and this is `nodes` exactly if no `echo` with
a format follows an `echo` in this way (`Script.joined_eq_nodes_iff`).
-/

namespace ColonScript

open Block

/-! ### Payloads and numerals that are read back -/

/-- The payload of a text stands for the text. -/
lemma Value.ofPayload_escape (text : String) :
    ofPayload (String.ofList (Text.Quoted.escape text.toList)) = text := by
  rw [ofPayload, String.toList_ofList, Text.Quoted.unescape_escape, String.ofList_toList]

/-- The payload of a text represents the text. -/
lemma Block.represents_escape (text : String) :
    Represents ⟨.text, String.ofList (Text.Quoted.escape text.toList)⟩ (.text text) := by
  have hpayload : Represents ⟨.text, String.ofList (Text.Quoted.escape text.toList)⟩
      (.text (Value.ofPayload (String.ofList (Text.Quoted.escape text.toList)))) := .text
  rwa [Value.ofPayload_escape] at hpayload

namespace Decimal

/-- A run of digits is read as its value, without a sign. -/
lemma integer?_of_isDigit {ds : List Char} (hne : ds ≠ []) (hall : ∀ c ∈ ds, c.isDigit = true) :
    integer? ds = some (value ds : ℤ) := by
  have hnatural : natural? ds = some (value ds) := by
    simp [natural?, hne, List.all_eq_true.2 hall]
  unfold integer?
  split
  · exact absurd (hall '-' List.mem_cons_self) (by decide)
  · exact absurd (hall '+' List.mem_cons_self) (by decide)
  · rw [hnatural]
    rfl

/-- The digits of a number are read as the number, without a sign. -/
lemma integer?_digits (n : ℕ) : integer? (digits n) = some (n : ℤ) := by
  rw [integer?_of_isDigit (digits_ne_nil n) fun _ => isDigit_of_mem_digits, value_digits]

/-- The digits of a number that fits in 64 bits with sign are read as the number. -/
lemma int64?_digits {n : ℕ} (hfits : (n : ℤ) ≤ Int64.maxValue.toInt) :
    int64? (digits n) = some (Int64.ofInt n) := by
  simp [int64?, integer?_digits, hfits]

end Decimal

/-! ### Tokens by name -/

lemma Keyword.toLower_word (k : Keyword) : k.word.toLower = k.word := by
  cases k <;> decide +kernel

/-- A name that is a keyword in small letters makes the token of the keyword. -/
lemma Token.kind_ofName {name : String} {k : Keyword} (h : name.toLower = k.word) :
    (ofName name).kind = .command ⟨.keyword k, none⟩ := by
  simp [ofName, h, CommandName.ofWord]

lemma Token.kind_ofName_word (k : Keyword) :
    (ofName k.word).kind = .command ⟨.keyword k, none⟩ :=
  kind_ofName k.toLower_word

/-- A token of a keyword is classified by the keyword. -/
lemma Token.kindName_of_kind {t : Token} {k : Keyword} {a : Option Argument}
    (h : t.kind = .command ⟨.keyword k, a⟩) : t.kindName = k.word := by
  simp [kindName, h, CommandName.word]

lemma Token.group_of_kind {t : Token} {k : Keyword} {a : Option Argument}
    (h : t.kind = .command ⟨.keyword k, a⟩) : t.group = Group.ofKeyword k := by
  rw [group, kindName_of_kind h]
  cases k <;> decide

/-! ### Values -/

namespace Script

/-- A literal that a call can pass: any text, or an integer that fits in 64 bits with sign. -/
inductive Literal where
  | text (s : String)
  | integer (n : UInt64) (fits : (n.toNat : ℤ) ≤ Int64.maxValue.toInt)

/-- The token of a literal. -/
def Literal.token : Literal → Token
  | text s => (Token.ofName "const").withText s
  | integer n _ => (Token.ofName "const").withInteger n

/-- The argument of that token: the payload of the text, or the digits of the integer. -/
def Literal.argument : Literal → Argument
  | text s => ⟨.text, String.ofList (Text.Quoted.escape s.toList)⟩
  | integer n _ => ⟨.static, String.ofList (Decimal.digits n.toNat)⟩

/-- The value that a literal stands for. -/
def Literal.value : Literal → Value
  | text s => .text s
  | integer n _ => .static (Int64.ofInt n.toNat)

/-- Something that a call can pass as a value. -/
inductive Item where
  | reference (r : Reference)
  | trueValue
  | falseValue
  | nullValue
  | literal (l : Literal)

/-- The token of an item.  A script puts it on the current line. -/
def Item.token : Item → Token
  | reference r => ⟨.reference r, 1⟩
  | trueValue => Token.ofName "true"
  | falseValue => Token.ofName "false"
  | nullValue => Token.ofName "null"
  | literal l => l.token

/-- The operand that an item stands for. -/
def Item.operand : Item → Operand
  | reference r => .reference r
  | trueValue => .reserved .trueValue
  | falseValue => .reserved .falseValue
  | nullValue => .reserved .nullValue
  | literal l => .literal l.value

/-- A token that was written for an item, on any line. -/
def Item.WrittenAs (item : Item) (t : Token) : Prop :=
  t.kind = item.token.kind

/-- A literal is written as a `const` with its argument. -/
lemma Literal.kind_token (l : Literal) :
    l.token.kind = .command ⟨.keyword .const, some l.argument⟩ := by
  have hconst : (Token.ofName "const").kind = .command ⟨.keyword .const, none⟩ :=
    Token.kind_ofName_word .const
  cases l with
  | text s => simp only [token, Token.withText, Token.withArgument, hconst, argument]
  | integer n fits => simp only [token, Token.withInteger, Token.withArgument, hconst, argument]

/-- The argument of a literal represents its value. -/
lemma Literal.represents (l : Literal) : Represents l.argument l.value := by
  cases l with
  | text s => exact represents_escape s
  | integer n fits =>
    refine .static ?_
    rw [String.toList_ofList, Decimal.int64?_digits fits]

namespace Item

variable {item : Item} {t : Token}

/-- A token that was written for an item denotes its operand. -/
lemma WrittenAs.denotes (h : item.WrittenAs t) : Denotes t item.operand := by
  cases item with
  | reference r => exact .reference h
  | trueValue => exact .reserved (h.trans (Token.kind_ofName_word .trueValue)) rfl
  | falseValue => exact .reserved (h.trans (Token.kind_ofName_word .falseValue)) rfl
  | nullValue => exact .reserved (h.trans (Token.kind_ofName_word .nullValue)) rfl
  | literal l => exact .literal (h.trans l.kind_token) rfl l.represents

/-- A token that was written for an item is a value. -/
lemma WrittenAs.group_eq (h : item.WrittenAs t) : t.group = .value := by
  cases item with
  | reference r =>
    have hkind : t.kind = .reference r := h
    simp [Token.group, Token.kindName, hkind, Group.ofKindName]
  | trueValue => exact Token.group_of_kind (h.trans (Token.kind_ofName_word .trueValue))
  | falseValue => exact Token.group_of_kind (h.trans (Token.kind_ofName_word .falseValue))
  | nullValue => exact Token.group_of_kind (h.trans (Token.kind_ofName_word .nullValue))
  | literal l => exact Token.group_of_kind (h.trans l.kind_token)

/-- The tokens that were written for some items denote their operands. -/
lemma forall₂_denotes {items : List Item} {run : List Token}
    (h : List.Forall₂ Item.WrittenAs items run) :
    List.Forall₂ Denotes run (items.map Item.operand) := by
  rw [List.forall₂_map_right_iff]
  exact (List.Forall₂.imp (fun _ _ => WrittenAs.denotes) h).flip

/-- An `echo` goes on with the tokens that were written for some items. -/
lemma continues_of_mem {items : List Item} {run : List Token}
    (h : List.Forall₂ Item.WrittenAs items run) : ∀ t ∈ run, Continues t := by
  induction h with
  | nil => simp
  | cons hfirst _ ih => exact List.forall_mem_cons.2 ⟨.inl hfirst.group_eq, ih⟩

end Item

/-! ### Calls -/

/-- A name that declares a type, in small or capital letters. -/
structure TypeName where
  name : String
  type : TypeTag
  declares : ∃ k ∈ keywordsOf type, name.toLower = k.word

/-- A call of a script.  An `echo` may have a format, and a definition may have an initial
value. -/
inductive Call where
  | newline
  | echo (format : Option String) (values : List Item) (ne_nil : values ≠ [])
  | define (type : TypeName) (n : UInt64) (initial : Option Item)

/-- Carries out a call. -/
def perform (s : Script) : Call → Script
  | .newline => s.newline
  | .echo none values _ => s.echo (values.map Item.token)
  | .echo (some format) values _ => s.echoFormat format (values.map Item.token)
  | .define type n none => s.define type.name n
  | .define type n (some value) => s.defineWith type.name n value.token

/-- The script that is written by some calls. -/
def ofCalls (calls : List Call) : Script :=
  calls.foldl perform {}

/-- The first token of an `echo`. -/
def echoToken : Option String → Token
  | none => Token.ofName "echo"
  | some format => (Token.ofName "echo").withText format

namespace Call

/-- The line after a call. -/
def lineAfter (line : ℕ) : Call → ℕ
  | newline => line + 1
  | echo _ _ _ | define _ _ _ => line

/-- The tokens of a call. -/
def tokens : Call → List Token
  | newline => []
  | echo format values _ => echoToken format :: values.map Item.token
  | define type n initial =>
    [.ofName "define", .ofName type.name, .ofVariable n] ++
      initial.toList.flatMap fun value => [.ofName "store", value.token]

/-- The node that a call on a given line is meant as. -/
def node? (line : ℕ) : Call → Option Node
  | newline => none
  | echo format values _ =>
    some (.echo ((echoToken format).onLine line) format (values.map Item.operand))
  | define type n initial =>
    some (.define ((Token.ofName "define").onLine line) type.type ⟨.var, .index n, false⟩
      (initial.map Item.operand))

end Call

/-- The tree that some calls from a given line on are meant as: one node for each call that is not
a newline, in the same order. -/
def nodes (line : ℕ) : List Call → Tree
  | [] => []
  | call :: rest => (call.node? line).toList ++ nodes (call.lineAfter line) rest

/-- The operands that an `echo` takes from the calls after it. -/
def taken : List Call → List Operand
  | .newline :: rest => taken rest
  | .echo (some format) values _ :: rest =>
    .literal (.text format) :: values.map Item.operand ++ taken rest
  | _ => []

/-- The tree that the tokens of some calls are built into; `afterEcho` says whether the last call
before them that is not a newline is an `echo`, which then takes the calls with a format. -/
def joined (line : ℕ) (afterEcho : Bool) : List Call → Tree
  | [] => []
  | .newline :: rest => joined (line + 1) afterEcho rest
  | .echo format values _ :: rest =>
    if afterEcho ∧ format.isSome then joined line true rest
    else
      .echo ((echoToken format).onLine line) format (values.map Item.operand ++ taken rest) ::
        joined line true rest
  | .define type n initial :: rest =>
    ((Call.define type n initial).node? line).toList ++ joined line false rest

/-! ### The tokens of calls -/

/-- The tokens that some calls write from a given line on. -/
def written (line : ℕ) : List Call → List Token
  | [] => []
  | call :: rest => call.tokens.map (·.onLine line) ++ written (call.lineAfter line) rest

lemma append_eq (s : Script) (ts : List Token) :
    s.append ts = { s with tokens := s.tokens ++ ts.map (·.onLine s.line) } := by
  induction ts generalizing s with
  | nil => simp [append]
  | cons t rest ih =>
    have hcons : s.append (t :: rest) = (s.token t).append rest := rfl
    rw [hcons, ih]
    simp [token]

/-- A call writes its tokens on the current line. -/
lemma perform_eq (s : Script) (call : Call) :
    s.perform call =
      ⟨s.tokens ++ call.tokens.map (·.onLine s.line), call.lineAfter s.line⟩ := by
  cases call with
  | newline => simp [perform, newline, Call.tokens, Call.lineAfter]
  | echo format values ne_nil =>
    cases format <;> simp [perform, echo, echoFormat, append_eq, Call.tokens, echoToken,
      Call.lineAfter]
  | define type n initial =>
    cases initial <;> simp [perform, define, defineWith, append_eq, Call.tokens, Call.lineAfter]

/-- Calls write their tokens one after the other. -/
lemma tokens_foldl_perform (s : Script) (calls : List Call) :
    (calls.foldl perform s).tokens = s.tokens ++ written s.line calls := by
  induction calls generalizing s with
  | nil => simp [written]
  | cons call rest ih => rw [List.foldl_cons, ih, perform_eq, written, List.append_assoc]

/-- The first token of an `echo` has the format as its argument. -/
lemma kind_echoToken (format : Option String) :
    (echoToken format).kind = .command ⟨.keyword .echo, format.map fun text =>
      ⟨.text, String.ofList (Text.Quoted.escape text.toList)⟩⟩ := by
  have hecho : (Token.ofName "echo").kind = .command ⟨.keyword .echo, none⟩ :=
    Token.kind_ofName_word .echo
  cases format with
  | none => exact hecho
  | some text => simp [echoToken, Token.withText, Token.withArgument, hecho]

/-- The tokens of calls start with an `echo` or a `define`. -/
lemma kindName_of_head?_written {line : ℕ} {calls : List Call} {t : Token}
    (h : t ∈ (written line calls).head?) : t.kindName = "echo" ∨ t.kindName = "define" := by
  induction calls generalizing line with
  | nil => simp [written] at h
  | cons call rest ih =>
    cases call with
    | newline => exact ih h
    | echo format values ne_nil =>
      obtain rfl : (echoToken format).onLine line = t := by
        simpa [written, Call.tokens] using h
      exact .inl (Token.kindName_of_kind (kind_echoToken format))
    | define type n initial =>
      obtain rfl : (Token.ofName "define").onLine line = t := by
        simpa [written, Call.tokens] using h
      exact .inr (Token.kindName_of_kind (Token.kind_ofName_word .define))

/-- No initial value is taken from the calls after a definition. -/
lemma not_storeFollows_written (line : ℕ) (calls : List Call) :
    ¬ StoreFollows (written line calls) := by
  have hhead : ∀ t ∈ (written line calls).head?, t.kindName = "echo" ∨ t.kindName = "define" :=
    fun t ht => kindName_of_head?_written ht
  match written line calls, hhead with
  | [], _ => exact id
  | [_], _ => exact id
  | store :: value :: more, hhead =>
    rintro ⟨hstore, -⟩
    rcases hhead store rfl with hecho | hdefine
    · simp [hstore] at hecho
    · simp [hstore] at hdefine

/-! ### Blocks of calls -/

/-- An `echo` and the values that were written for it, on any lines, form a block together with
all operands that follow. -/
lemma form_echo (before : Option Token) {format : Option String} {items : List Item} {t : Token}
    {run more rest : List Token} {os : List Operand} (ht : t.kind = (echoToken format).kind)
    (hne : items ≠ []) (hitems : List.Forall₂ Item.WrittenAs items run)
    (hmore : ∀ u ∈ more, Continues u) (hos : List.Forall₂ Denotes more os)
    (hstop : ∀ u ∈ rest.head?, ¬ Continues u) :
    Form before (.echo t format (items.map Item.operand ++ os)) (t :: (run ++ more)) rest := by
  rw [kind_echoToken] at ht
  have hname : t.isNamed (.keyword .echo) = true := isNamed_keyword_iff.2 ⟨_, ht⟩
  have hargument : t.argument? = format.map fun text =>
      ⟨.text, String.ofList (Text.Quoted.escape text.toList)⟩ := by
    simp [Token.argument?, Token.command?, ht]
  obtain ⟨item, others, rfl⟩ := List.exists_cons_of_ne_nil hne
  obtain ⟨first, tail, hfirst, -, rfl⟩ := List.forall₂_cons_left_iff.1 hitems
  have hvalue : first.group = .value := hfirst.group_eq
  have hrun : OperandRun ((item :: others).map Item.operand ++ os) (first :: tail ++ more) rest :=
    { ne_nil := by simp
      all := List.forall_mem_append.2 ⟨Item.continues_of_mem hitems, hmore⟩
      stops := hstop
      denotes := List.rel_append (Item.forall₂_denotes hitems) hos }
  have hformat : FormatForm t format [] (first :: tail ++ more ++ rest) := by
    cases format with
    | none =>
      refine .absent (by simp [hargument]) fun hsame => ?_
      rw [Token.group, hsame] at hvalue
      simp [show Group.ofKindName "format" = .modifier by decide] at hvalue
    | some text =>
      have hown : FormatForm t _ [] (first :: (tail ++ more ++ rest)) := .own hargument hvalue
      rwa [Value.ofPayload_escape] at hown
  have hform : Form before _ (t :: [] ++ (first :: tail ++ more)) rest :=
    .echo hname hformat hrun
  exact hform

/-- The keywords that declare a type belong to the groups of types. -/
lemma ofKeyword_of_mem_keywordsOf {k : Keyword} {type : TypeTag} (h : k ∈ keywordsOf type) :
    Group.ofKeyword k = .dataType ∨ Group.ofKeyword k = .dataStructure := by
  cases type <;> simp only [keywordsOf, List.mem_cons, List.not_mem_nil, or_false] at h
  case fn => rcases h with rfl | rfl <;> decide
  all_goals subst h; decide

/-- The tokens of a definition form a block unless a `store` and a value follow. -/
lemma form_define (before : Option Token) (type : TypeName) (n : UInt64) (initial : Option Item)
    (line : ℕ) {rest : List Token} (hrest : ¬ StoreFollows rest) :
    ∃ node ∈ (Call.define type n initial).node? line,
      Form before node ((Call.define type n initial).tokens.map (·.onLine line)) rest := by
  refine ⟨_, rfl, ?_⟩
  obtain ⟨k, hk, hlower⟩ := type.declares
  have hkind : (Token.ofName type.name).kind = .command ⟨.keyword k, none⟩ :=
    Token.kind_ofName hlower
  have hgroup : Group.ofKeyword k = .dataType ∨ Group.ofKeyword k = .dataStructure :=
    ofKeyword_of_mem_keywordsOf hk
  rw [← Token.group_of_kind hkind] at hgroup
  have hinitial : InitialForm (initial.map Item.operand)
      ((initial.toList.flatMap fun value => [Token.ofName "store", value.token]).map
        (·.onLine line)) rest := by
    cases initial with
    | none => exact .absent hrest
    | some value =>
      have hvalue : value.WrittenAs (value.token.onLine line) := rfl
      exact .stored (Token.kindName_of_kind (Token.kind_ofName_word .store)) hvalue.group_eq
        hvalue.denotes
  rw [Call.tokens, List.map_append]
  exact Form.define (isNamed_keyword_iff.2 ⟨none, Token.kind_ofName_word .define⟩) hgroup
    ⟨k, hk, isNamed_keyword_iff.2 ⟨none, hkind⟩⟩ rfl rfl hinitial

/-- A token of a keyword that is no value, without an argument, ends the operands of an `echo`. -/
lemma not_continues_of_kind {t : Token} {k : Keyword} (h : t.kind = .command ⟨.keyword k, none⟩)
    (hk : Group.ofKeyword k ≠ .value) : ¬ Continues t := by
  rintro (hgroup | hargument)
  · exact hk ((Token.group_of_kind h).symm.trans hgroup)
  · exact hargument (by simp [Token.argument?, Token.command?, h])

/-- An `echo` goes on with another `echo` that has a format, and takes the format as a text. -/
lemma denotes_echoToken {t : Token} {format : String}
    (h : t.kind = (echoToken (some format)).kind) :
    Continues t ∧ Denotes t (.literal (.text format)) := by
  rw [kind_echoToken] at h
  have hargument : t.argument? ≠ none := by simp [Token.argument?, Token.command?, h]
  exact ⟨.inr hargument, .literal h rfl (represents_escape format)⟩

/-- A block is built into its node, and the tokens after it are built as if they stood alone after
its last token. -/
lemma ofTokensAfter_append {before : Option Token} {node : Node} {block rest : List Token}
    {tree : Tree} (hform : Form before node block rest)
    (hrest : Tree.ofTokensAfter block.getLast? rest = .ok tree) :
    Tree.ofTokensAfter before (block ++ rest) = .ok (node :: tree) := by
  obtain ⟨tail, rfl⟩ := hform.head
  rw [List.cons_append]
  exact Tree.ofTokensAfter_cons_eq_ok_iff.2 ⟨_, tree, next_of_form hform, hrest, rfl⟩

/-- The tokens of some calls are built into their joined tree.  After an `echo` they are divided
into those that the `echo` takes and the others, and these are built into the joined tree that is
left. -/
structure Builds (line : ℕ) (calls : List Call) : Prop where
  alone : ∀ before, Tree.ofTokensAfter before (written line calls) = .ok (joined line false calls)
  afterEcho : ∃ run rest, written line calls = run ++ rest ∧
    List.Forall₂ Denotes run (taken calls) ∧ (∀ t ∈ run, Continues t) ∧
    (∀ t ∈ rest.head?, ¬ Continues t) ∧
    ∀ before, Tree.ofTokensAfter before rest = .ok (joined line true calls)

namespace Builds

variable {line : ℕ} {calls : List Call}

/-- Calls that start with a token at which operands end are built alike in both places. -/
lemma of_not_continues {t : Token} {more : List Token} (hwritten : written line calls = t :: more)
    (ht : ¬ Continues t) (htaken : taken calls = [])
    (hjoined : joined line true calls = joined line false calls)
    (halone : ∀ before,
      Tree.ofTokensAfter before (written line calls) = .ok (joined line false calls)) :
    Builds line calls where
  alone := halone
  afterEcho := by
    refine ⟨[], written line calls, rfl, ?_, by simp, by simpa [hwritten] using ht, ?_⟩
    · rw [htaken]
      exact .nil
    · rwa [hjoined]

/-- An `echo` is built with the operands that it takes from the calls after it. -/
lemma echo (h : Builds line calls) (format : Option String) (values : List Item)
    (ne_nil : values ≠ []) : Builds line (.echo format values ne_nil :: calls) := by
  obtain ⟨-, run, rest, hsplit, hdenotes, hcontinues, hstops, hrest⟩ := h
  let t := (echoToken format).onLine line
  let own := values.map fun value => value.token.onLine line
  have hown : List.Forall₂ Item.WrittenAs values own := by
    rw [List.forall₂_map_right_iff, List.forall₂_same]
    exact fun _ _ => rfl
  have hwritten : written line (.echo format values ne_nil :: calls) =
      t :: (own ++ run) ++ rest := by
    simp [written, Call.tokens, Call.lineAfter, hsplit, t, own, Function.comp_def]
  have halone (before : Option Token) :
      Tree.ofTokensAfter before (written line (.echo format values ne_nil :: calls)) =
        .ok (joined line false (.echo format values ne_nil :: calls)) := by
    have hform := form_echo before (t := t) rfl ne_nil hown hcontinues hdenotes hstops
    rw [hwritten, ofTokensAfter_append hform (hrest _)]
    simp [joined, t]
  cases format with
  | none =>
    have hstop : ¬ Continues t := not_continues_of_kind (kind_echoToken none) (by decide)
    exact of_not_continues hwritten hstop rfl (by simp [joined]) halone
  | some text =>
    -- the `echo` before takes all of its tokens, and then those that it would have taken
    obtain ⟨hcontinue, hdenote⟩ := denotes_echoToken (t := t) rfl
    refine ⟨halone, t :: (own ++ run), rest, hwritten, .cons hdenote ?_, ?_, hstops, ?_⟩
    · exact List.rel_append (Item.forall₂_denotes hown) hdenotes
    · exact List.forall_mem_cons.2 ⟨hcontinue,
        List.forall_mem_append.2 ⟨Item.continues_of_mem hown, hcontinues⟩⟩
    · intro before
      rw [hrest before]
      simp [joined]

/-- A definition is built from its own tokens. -/
lemma define (h : Builds line calls) (type : TypeName) (n : UInt64) (initial : Option Item) :
    Builds line (.define type n initial :: calls) := by
  have hstop : ¬ Continues ((Token.ofName "define").onLine line) :=
    not_continues_of_kind (Token.kind_ofName_word .define) (by decide)
  refine of_not_continues rfl hstop rfl (by simp [joined]) fun before => ?_
  obtain ⟨node, hnode, hform⟩ := form_define before type n initial line
    (not_storeFollows_written line calls)
  rw [written, joined, Option.mem_def.1 hnode]
  exact ofTokensAfter_append hform (h.alone _)

end Builds

/-- The tokens of all calls are built into their joined tree. -/
lemma builds (line : ℕ) (calls : List Call) : Builds line calls := by
  induction calls generalizing line with
  | nil =>
    have hnil (before : Option Token) : Tree.ofTokensAfter before [] = .ok [] := by
      rw [Tree.ofTokensAfter]
    exact ⟨hnil, [], [], rfl, .nil, by simp, by simp, hnil⟩
  | cons call rest ih =>
    cases call with
    | newline => exact ⟨(ih (line + 1)).alone, (ih (line + 1)).afterEcho⟩
    | echo format values ne_nil => exact (ih line).echo format values ne_nil
    | define type n initial => exact (ih line).define type n initial

/-! ### Calls that are one node each -/

/-- Whether a call is a newline. -/
def Call.isNewline : Call → Bool
  | newline => true
  | _ => false

/-- A call that is an `echo`. -/
def Call.IsEcho : Call → Prop
  | echo _ _ _ => True
  | _ => False

/-- A call that is an `echo` with a format. -/
def Call.IsFormatted : Call → Prop
  | echo (some _) _ _ => True
  | _ => False

/-- The calls that are meant as a node. -/
def statements (calls : List Call) : List Call :=
  calls.filter (!·.isNewline)

/-- No `echo` with a format comes directly after an `echo`, newlines apart. -/
def Separate (calls : List Call) : Prop :=
  (statements calls).IsChain fun first second => first.IsEcho → ¬ second.IsFormatted

/-- An `echo` takes nothing from the calls after it if these do not start with a format. -/
lemma taken_eq_nil_iff (calls : List Call) :
    taken calls = [] ↔ ∀ call ∈ (statements calls).head?, ¬ call.IsFormatted := by
  induction calls with
  | nil => simp [taken, statements]
  | cons call rest ih =>
    cases call with
    | newline => exact ih
    | echo format values ne_nil =>
      cases format <;> simp [taken, statements, Call.isNewline, Call.IsFormatted]
    | define type n initial => simp [taken, statements, Call.isNewline, Call.IsFormatted]

/-- The joined tree has at most one node for each call. -/
lemma length_joined_le (line : ℕ) (afterEcho : Bool) (calls : List Call) :
    (joined line afterEcho calls).length ≤ (nodes line calls).length := by
  induction calls generalizing line afterEcho with
  | nil => simp [joined, nodes]
  | cons call rest ih =>
    cases call with
    | newline => exact ih (line + 1) afterEcho
    | echo format values ne_nil =>
      have hrest := ih line true
      rw [joined]
      split_ifs <;> simp [nodes, Call.node?, Call.lineAfter] <;> omega
    | define type n initial =>
      have hrest := ih line false
      simp [joined, nodes, Call.node?, Call.lineAfter]
      omega

lemma statements_cons {call : Call} (hcall : call.isNewline = false) (rest : List Call) :
    statements (call :: rest) = call :: statements rest := by
  simp [statements, hcall]

lemma separate_cons_iff {call : Call} (hcall : call.isNewline = false) (rest : List Call) :
    Separate (call :: rest) ↔
      (∀ next ∈ (statements rest).head?, call.IsEcho → ¬ next.IsFormatted) ∧ Separate rest := by
  rw [Separate, statements_cons hcall, List.isChain_cons]
  rfl

/-- The joined tree has one node for each call exactly if no call is taken by an `echo` before
it. -/
lemma joined_eq_nodes_iff (line : ℕ) (afterEcho : Bool) (calls : List Call) :
    joined line afterEcho calls = nodes line calls ↔
      (afterEcho = true → ∀ call ∈ (statements calls).head?, ¬ call.IsFormatted) ∧
        Separate calls := by
  induction calls generalizing line afterEcho with
  | nil => simp [joined, nodes, statements, Separate]
  | cons call rest ih =>
    cases call with
    | newline => exact ih (line + 1) afterEcho
    | echo format values ne_nil =>
      rw [separate_cons_iff rfl, statements_cons rfl]
      by_cases htaken : afterEcho = true ∧ format.isSome = true
      · -- the call is taken, so a node is missing
        obtain ⟨rfl, hformat⟩ := htaken
        obtain ⟨text, rfl⟩ := Option.isSome_iff_exists.1 hformat
        have hshort := length_joined_le line true rest
        have hne : joined line true (.echo (some text) values ne_nil :: rest) ≠
            nodes line (.echo (some text) values ne_nil :: rest) := by
          intro hsame
          have hlength := congrArg List.length hsame
          simp [joined, nodes, Call.node?, Call.lineAfter] at hlength
          omega
        simp [hne, Call.IsFormatted]
      · have hjoined : joined line afterEcho (.echo format values ne_nil :: rest) =
            nodes line (.echo format values ne_nil :: rest) ↔
              taken rest = [] ∧ joined line true rest = nodes line rest := by
          simp [joined, htaken, nodes, Call.node?, Call.lineAfter]
        have hopen : afterEcho = true → ¬ (Call.echo format values ne_nil).IsFormatted := by
          intro hafter
          cases format with
          | none => exact id
          | some text => exact absurd ⟨hafter, rfl⟩ htaken
        rw [hjoined, ih, taken_eq_nil_iff]
        constructor
        · rintro ⟨hhead, -, hrest⟩
          refine ⟨fun hafter => ?_, fun next hnext _ => hhead next hnext, hrest⟩
          rintro _ ⟨⟩
          exact hopen hafter
        · rintro ⟨-, hhead, hrest⟩
          have hnot : ∀ next ∈ (statements rest).head?, ¬ next.IsFormatted :=
            fun next hnext => hhead next hnext trivial
          exact ⟨hnot, fun _ => hnot, hrest⟩
    | define type n initial =>
      rw [separate_cons_iff rfl, statements_cons rfl]
      have hjoined : joined line afterEcho (.define type n initial :: rest) =
          nodes line (.define type n initial :: rest) ↔
            joined line false rest = nodes line rest := by
        simp [joined, nodes, Call.lineAfter]
      rw [hjoined, ih]
      simp [Call.IsEcho, Call.IsFormatted]

/-- Calls are always built into their joined tree, and this has one node for each call that is not
a newline, in order and with the format, the values, the type, the variable and the initial value
of the call, exactly if no `echo` with a format comes directly after an `echo`, newlines apart. -/
theorem ofTokens_ofCalls (calls : List Call) :
    Tree.ofTokens (ofCalls calls).tokens = .ok (joined 1 false calls) ∧
      (Tree.ofTokens (ofCalls calls).tokens = .ok (nodes 1 calls) ↔ Separate calls) := by
  have htokens : (ofCalls calls).tokens = written 1 calls := tokens_foldl_perform {} calls
  have hbuild : Tree.ofTokens (ofCalls calls).tokens = .ok (joined 1 false calls) := by
    rw [htokens]
    exact (builds 1 calls).alone none
  refine ⟨hbuild, ?_⟩
  rw [hbuild, Except.ok.injEq, joined_eq_nodes_iff]
  simp

/-- An `echo` of one and, on the next line, an `echo` of two through a format are built into one
`echo` that prints the format between the two. -/
theorem ofTokens_ofCalls_taken_format :
    let calls : List Call := [
      .echo none [.literal (.integer 1 (by decide))] (by decide),
      .newline,
      .echo (some "%s") [.literal (.integer 2 (by decide))] (by decide)]
    Tree.ofTokens (ofCalls calls).tokens = .ok [.echo ⟨.command ⟨.keyword .echo, none⟩, 1⟩ none
      [.literal (.static 1), .literal (.text "%s"), .literal (.static 2)]] ∧
    Tree.ofTokens (ofCalls calls).tokens ≠ .ok (nodes 1 calls) := by
  constructor <;> decide +kernel

end Script

end ColonScript
