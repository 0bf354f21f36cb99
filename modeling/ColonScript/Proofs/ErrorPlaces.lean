import ColonScript.Proofs.CursorBuild
import ColonScript.Proofs.ReferencePlaces
import ColonScript.Proofs.ScriptCalls

/-!
# The places of errors

When tokens cannot be built into a tree, the error says where and why.  `BuildError.Anchored` states
what the place has to do with the tokens.

* A broken rule names one of the tokens and the line of that token.  Three rules are never named:
  that a token must be the last, that it must be the first, and that the tokens are at their end.
* A literal without a value is the argument of one of the commands, on the line of that command.

Each rule of `Block.next` keeps to this, and so does the whole (`Tree.anchors_ofTokensAfter`).  In
tokens of a source digits with a point can always be read, and digits without one unless they are
too large (`Source.Lexical.digits_of_blames`).
-/

namespace ColonScript

/-! ### Anchored errors -/

/-- A fault and the argument that it is about. -/
inductive LiteralFault.Blames : LiteralFault → Argument → Prop
  | notAValue {a : Argument} (hkind : a.kind ∈ [ArgKind.word, .index, .unknown]) :
      Blames (.notAValue a.kind) a
  | integerRange {payload : String} (hread : Decimal.int64? payload.toList = none) :
      Blames (.integerRange payload) ⟨.static, payload⟩
  | badNumber {payload : String} (hread : Binary64.read? payload.toList = none) :
      Blames (.badNumber payload) ⟨.dynamic, payload⟩

/-- The rules that are never named by an error. -/
def BrokenRule.unnamed : List BrokenRule := [.mustBeLast, .mustBeFirst, .unexpectedEnd]

/-- A violation at one of some tokens. -/
structure Violation.Anchored (tokens : List Token) (v : Violation) : Prop where
  token_mem : v.token ∈ tokens
  line_eq : v.line = v.token.line
  rule_notMem : v.rule ∉ BrokenRule.unnamed

/-- A literal without a value at one of some tokens, which is a command and has the literal as its
argument. -/
def LiteralError.Anchored (tokens : List Token) (e : LiteralError) : Prop :=
  ∃ t ∈ tokens, ∃ c a, t.kind = .command c ∧ c.argument = some a ∧ e.line = t.line ∧
    e.fault.Blames a

/-- An error at one of some tokens. -/
def BuildError.Anchored (tokens : List Token) : BuildError → Prop
  | violation v => v.Anchored tokens
  | literal e => e.Anchored tokens

/-- What is anchored in some tokens is anchored in more tokens. -/
lemma BuildError.Anchored.mono {tokens more : List Token} {e : BuildError} (h : e.Anchored tokens)
    (hsub : tokens ⊆ more) : e.Anchored more := by
  cases e with
  | violation v => exact ⟨hsub h.token_mem, h.line_eq, h.rule_notMem⟩
  | literal l =>
    obtain ⟨t, ht, hrest⟩ := h
    exact ⟨t, hsub ht, hrest⟩

namespace Block

/-- A result whose error, if it is one, is anchored in some tokens. -/
def Anchors {α : Type} (tokens : List Token) (x : Except BuildError α) : Prop :=
  ∀ e, x = .error e → e.Anchored tokens

section

variable {α β : Type} {tokens : List Token} {t : Token}

lemma anchors_ok (a : α) : Anchors tokens (.ok a) := by
  intro e h
  simp at h

lemma Anchors.map {x : Except BuildError α} (h : Anchors tokens x) (f : α → β) :
    Anchors tokens (x.map f) := by
  intro e he
  cases x with
  | ok a => simp [Except.map] at he
  | error e' =>
    obtain rfl : e' = e := Except.error.inj he
    exact h e' rfl

/-- An error that is passed on stays anchored. -/
lemma Anchors.error {x : Except BuildError α} {e : BuildError} (h : Anchors tokens x)
    (hx : x = .error e) : Anchors tokens (.error e : Except BuildError β) := by
  intro e' he
  obtain rfl : e = e' := Except.error.inj he
  exact h e hx

lemma Anchors.mono {more : List Token} {x : Except BuildError α} (h : Anchors tokens x)
    (hsub : tokens ⊆ more) : Anchors more x :=
  fun e he => (h e he).mono hsub

lemma anchors_broken (ht : t ∈ tokens) {rule : BrokenRule} (hrule : rule ∉ BrokenRule.unnamed) :
    Anchors tokens (broken rule t : Except BuildError α) := by
  intro e he
  obtain rfl : BuildError.violation (.ofToken rule t) = e := Except.error.inj he
  exact ⟨ht, rfl, hrule⟩

/-! ### Arguments -/

/-- The fault of an argument without a value is about this argument. -/
lemma blames_of_ofArgument {a : Argument} {line : ℕ} {e : LiteralError}
    (h : Value.ofArgument a line = .error e) : e.line = line ∧ e.fault.Blames a := by
  obtain ⟨kind, payload⟩ := a
  cases kind with
  | text => simp [Value.ofArgument] at h
  | static =>
    simp only [Value.ofArgument] at h
    split at h
    · simp at h
    · next hread =>
      obtain rfl := Except.error.inj h
      exact ⟨rfl, .integerRange hread⟩
  | dynamic =>
    simp only [Value.ofArgument] at h
    split at h
    · simp at h
    · next hread =>
      obtain rfl := Except.error.inj h
      exact ⟨rfl, .badNumber hread⟩
  | word | index | unknown =>
    obtain rfl := Except.error.inj h
    exact ⟨rfl, .notAValue (a := ⟨_, payload⟩) (by simp)⟩

lemma anchors_argumentValue (ht : t ∈ tokens) {c : Command} {a : Argument}
    (hkind : t.kind = .command c) (harg : c.argument = some a) :
    Anchors tokens (argumentValue a t) := by
  intro e he
  unfold argumentValue at he
  split at he
  · simp at he
  · next l hl =>
    obtain rfl := Except.error.inj he
    obtain ⟨hline, hblames⟩ := blames_of_ofArgument hl
    exact ⟨t, ht, c, a, hkind, harg, hline, hblames⟩

lemma anchors_requireArgument (ht : t ∈ tokens) (kinds : List ArgKind) :
    Anchors tokens (requireArgument kinds t) := by
  unfold requireArgument
  split
  · exact anchors_broken ht (by decide)
  · split_ifs
    · exact anchors_ok _
    · exact anchors_broken ht (by simp [BrokenRule.unnamed])

lemma anchors_requireText (ht : t ∈ tokens) : Anchors tokens (requireText t) := by
  unfold requireText
  split
  · next h => exact (anchors_requireArgument ht [.text]).error h
  · exact anchors_ok _

/-- A token with an argument is a command. -/
lemma exists_command_of_argument? {a : Argument} (h : t.argument? = some a) :
    ∃ c, t.kind = .command c ∧ c.argument = some a := by
  obtain ⟨kind, line⟩ := t
  cases kind with
  | reference r => simp [Token.argument?, Token.command?] at h
  | command c => exact ⟨c, rfl, h⟩

lemma anchors_requireLiteral (ht : t ∈ tokens) : Anchors tokens (requireLiteral t) := by
  unfold requireLiteral
  split
  · next h => exact (anchors_requireArgument ht _).error h
  · next a h =>
    obtain ⟨harg, -⟩ := requireArgument_eq_ok_iff.1 h
    obtain ⟨c, hkind, hargument⟩ := exists_command_of_argument? harg
    exact anchors_argumentValue ht hkind hargument

/-! ### Blocks -/

lemma anchors_operand (ht : t ∈ tokens) : Anchors tokens (operand t) := by
  unfold operand
  split
  · exact anchors_ok _
  · exact (anchors_requireLiteral ht).map _
  · exact anchors_ok _
  · exact anchors_ok _
  · exact anchors_ok _
  · next hkind => exact (anchors_argumentValue ht hkind rfl).map _
  · exact anchors_broken ht (by decide)

lemma anchors_operands {run : List Token} (hrun : run ⊆ tokens) :
    Anchors tokens (operands run) := by
  induction run with
  | nil => exact anchors_ok _
  | cons t more ih =>
    obtain ⟨ht, hmore⟩ := List.cons_subset.1 hrun
    rw [operands]
    split
    · next h => exact (anchors_operand ht).error h
    · exact (ih hmore).map _

lemma anchors_echoFormat (ht : t ∈ tokens) {rest : List Token} (hrest : rest ⊆ tokens) :
    Anchors tokens (echoFormat t rest) := by
  unfold echoFormat
  split
  · exact anchors_broken ht (by decide)
  · have hnext := (List.cons_subset.1 hrest).1
    split
    · split_ifs
      · exact anchors_ok _
      · exact anchors_broken hnext (by simp [BrokenRule.unnamed])
    · split_ifs
      · split
        · next h => exact (anchors_requireText hnext).error h
        · exact anchors_ok _
      · exact anchors_ok _

lemma anchors_echo (ht : t ∈ tokens) {rest : List Token} (hrest : rest ⊆ tokens) :
    Anchors tokens (echo t rest) := by
  unfold echo
  split
  · next h => exact (anchors_echoFormat ht hrest).error h
  · next f hformat =>
    have hrun : f.rest.takeWhile isOperand ⊆ tokens := by
      intro u hu
      apply hrest
      rw [← echoFormat_append hformat]
      exact List.mem_append_right _ (List.takeWhile_subset _ hu)
    split
    · next h => exact (anchors_operands hrun).error h
    · exact anchors_broken ht (by decide)
    · exact anchors_ok _

lemma anchors_requireType (ht : t ∈ tokens) (target : Token) :
    Anchors tokens (requireType t target) := by
  unfold requireType
  split
  · exact anchors_broken ht (by simp [BrokenRule.unnamed])
  · split
    · exact anchors_broken ht (by simp [BrokenRule.unnamed])
    · split
      · exact anchors_ok _
      · exact anchors_broken ht (by simp [BrokenRule.unnamed])

lemma anchors_requireVariable (ht : t ∈ tokens) : Anchors tokens (requireVariable t) := by
  unfold requireVariable
  split
  · split_ifs
    · exact anchors_ok _
    · exact anchors_broken ht (by decide)
  · exact anchors_broken ht (by decide)

lemma anchors_initialValue {rest : List Token} (hrest : rest ⊆ tokens) :
    Anchors tokens (initialValue rest) := by
  unfold initialValue
  split
  · split_ifs
    · have hvalue := (List.cons_subset.1 (List.cons_subset.1 hrest).2).1
      split
      · next h => exact (anchors_operand hvalue).error h
      · exact anchors_ok _
    · exact anchors_ok _
  · exact anchors_ok _

lemma anchors_define (ht : t ∈ tokens) {rest : List Token} (hrest : rest ⊆ tokens) :
    Anchors tokens (define t rest) := by
  unfold define
  split
  · exact anchors_broken ht (by decide)
  · exact anchors_broken (List.cons_subset.1 hrest).1 (by decide)
  · obtain ⟨htype, htail⟩ := List.cons_subset.1 hrest
    obtain ⟨htarget, hmore⟩ := List.cons_subset.1 htail
    split
    · next h => exact (anchors_requireType htype _).error h
    · next h => exact (anchors_requireVariable htarget).error h
    · next h => exact (anchors_initialValue hmore).error h
    · exact anchors_ok _

lemma anchors_modifierText (ht : t ∈ tokens) (before : Option Token) (kindName : String) :
    Anchors tokens (modifierText before t kindName) := by
  unfold modifierText
  split
  · next h => exact (anchors_requireText ht).error h
  · exact anchors_broken ht (by decide)
  · split_ifs
    · exact anchors_ok _
    · exact anchors_broken ht (by simp [BrokenRule.unnamed])

lemma anchors_single (ht : t ∈ tokens) (before : Option Token) :
    Anchors tokens (single before t) := by
  unfold single
  split
  · exact (anchors_requireLiteral ht).map _
  · exact (anchors_modifierText ht before _).map _
  · exact (anchors_modifierText ht before _).map _
  · exact anchors_ok _

/-- A block that cannot be taken fails at one of the tokens from its first one on. -/
lemma anchors_next (ht : t ∈ tokens) {rest : List Token} (hrest : rest ⊆ tokens)
    (before : Option Token) : Anchors tokens (next before t rest) := by
  unfold next
  split
  · exact anchors_echo ht hrest
  · exact anchors_define ht hrest
  · exact (anchors_single ht before).map _

end

end Block

/-- Tokens that cannot be built fail at one of them. -/
lemma Tree.anchors_ofTokensAfter (before : Option Token) (tokens : List Token) :
    Block.Anchors tokens (ofTokensAfter before tokens) := by
  -- the induction is on the length, as a block takes several tokens at once
  induction hlength : tokens.length using Nat.strong_induction_on generalizing before tokens with
  | _ n ih =>
    subst hlength
    cases tokens with
    | nil =>
      rw [ofTokensAfter]
      exact Block.anchors_ok _
    | cons t rest =>
      have hnext := Block.anchors_next List.mem_cons_self (List.subset_cons_self t rest) before
      rw [ofTokensAfter_cons]
      cases hblock : Block.next before t rest with
      | error e => exact hnext.error hblock
      | ok b =>
        have hsub : b.rest ⊆ t :: rest := by
          rw [← Block.tail_append_rest hblock]
          exact List.subset_cons_of_subset t (List.subset_append_right _ _)
        have hrest := ih b.rest.length (Block.length_rest_lt hblock) (t :: b.tail).getLast?
          b.rest rfl
        exact (hrest.map _).mono hsub

/-! ### Literals of a source -/

/-- Digits are out of range exactly if their value is at least `2 ^ 63`. -/
lemma Decimal.int64?_eq_none_iff {ds : List Char} (hne : ds ≠ [])
    (hall : ∀ c ∈ ds, c.isDigit = true) : int64? ds = none ↔ 2 ^ 63 ≤ value ds := by
  have hmin : Int64.minValue.toInt = -2 ^ 63 := by decide
  have hmax : Int64.maxValue.toInt = 2 ^ 63 - 1 := by decide
  rw [int64?, integer?_of_isDigit hne hall, hmin, hmax]
  simp only [Option.map_eq_none_iff, Option.filter_eq_none_iff, Option.some.injEq, forall_eq',
    Bool.and_eq_true, decide_eq_true_eq]
  omega

/-- Digits with a point among them can be read. -/
lemma Binary64.read?_ne_none {whole fraction : List Char} (hne : whole ≠ [] ∨ fraction ≠ [])
    (hwhole : ∀ c ∈ whole, c.isDigit = true) (hfraction : ∀ c ∈ fraction, c.isDigit = true) :
    read? (whole ++ '.' :: fraction) ≠ none := by
  -- the text starts with a digit or with the point, so not with a sign
  have hsign : read? (whole ++ '.' :: fraction) = magnitude? false (whole ++ '.' :: fraction) := by
    cases whole with
    | nil => rfl
    | cons c more =>
      have hc := hwhole c List.mem_cons_self
      apply read?.eq_3
      · intro rest same
        obtain ⟨rfl, -⟩ := List.cons.inj same
        exact absurd hc (by decide)
      · intro rest same
        obtain ⟨rfl, -⟩ := List.cons.inj same
        exact absurd hc (by decide)
  -- no word for an infinity or a NaN has a point in it
  have hword (word : String) (hpoint : '.' ∉ word.toList) :
      (String.ofList ((whole ++ '.' :: fraction).map Char.toLower) == word) = false := by
    rw [beq_eq_false_iff_ne]
    rintro rfl
    apply hpoint
    rw [String.toList_ofList]
    exact List.mem_map.2 ⟨'.', by simp, by decide⟩
  have hrun : Grammar.MaximalRun Char.isDigit whole ('.' :: fraction) := ⟨hwhole, by simp⟩
  have htake : fraction.takeWhile Char.isDigit = fraction := List.takeWhile_eq_self_iff.2 hfraction
  have hdrop : fraction.dropWhile Char.isDigit = [] := List.dropWhile_eq_nil_iff.2 hfraction
  have hdigits : (whole ++ fraction).isEmpty = false := by simpa [imp_iff_not_or] using hne
  rw [hsign, magnitude?, hword _ (by decide), hword _ (by decide), hword _ (by decide), unsigned?,
    hrun.takeWhile_append, hrun.dropWhile_append]
  simp [htake, hdrop, hdigits, exponent?]

/-- In a source, a number that cannot be read is a run of digits, and it is too large. -/
lemma Source.Lexical.digits_of_blames {tokens : List Token} (h : Lexical tokens) {t : Token}
    (ht : t ∈ tokens) {c : Command} {a : Argument} (hkind : t.kind = .command c)
    (harg : c.argument = some a) {fault : LiteralFault} (hblames : fault.Blames a) :
    (∀ w, fault ≠ .badNumber w) ∧ ∀ w, fault = .integerRange w →
      w.toList ≠ [] ∧ (∀ d ∈ w.toList, d.isDigit = true) ∧ 2 ^ 63 ≤ Decimal.value w.toList := by
  have hform := h t ht
  rw [hkind] at hform
  obtain ⟨text, rest, hargument⟩ : ∃ text rest, Grammar.ArgumentForm a text rest := by
    generalize (TokenKind.command c).chars = chars at hform
    cases hform with
    | command hcommand =>
      cases hcommand with
      | bare => simp at harg
      | argument _ _ hargument =>
        obtain rfl := Option.some.inj harg
        exact ⟨_, _, hargument⟩
      | dangling => simp at harg
  cases hblames with
  | notAValue _ => simp
  | @integerRange payload hread =>
    refine ⟨by simp, ?_⟩
    rintro w ⟨⟩
    cases hargument.form with
    | static hne hrun =>
      exact ⟨hne, hrun.all, (Decimal.int64?_eq_none_iff hne hrun.all).1 hread⟩
  | @badNumber payload hread =>
    obtain ⟨whole, fraction, hpayload, hne, hwhole, hfraction⟩ : ∃ whole fraction,
        payload.toList = whole ++ '.' :: fraction ∧ (whole ≠ [] ∨ fraction ≠ []) ∧
          (∀ d ∈ whole, d.isDigit = true) ∧ ∀ d ∈ fraction, d.isDigit = true := by
      generalize hchars : payload.toList = chars
      have hdynamic := hargument.form
      rw [hchars] at hdynamic
      cases hdynamic with
      | dynamic hne hwhole hrun => exact ⟨_, _, rfl, hne, hwhole, hrun.all⟩
    rw [hpayload] at hread
    exact absurd hread (Binary64.read?_ne_none hne hwhole hfraction)

namespace Tree

/-- Building by a cursor never leaves the tokens.  An error is anchored in the tokens: a broken rule
names one of them and its line, and a literal without a value is the argument of one of them, on its
line.  If the tokens are those of a source, then digits with a point always have a value, and digits
without one have none only if they make up at least `2 ^ 63`. -/
theorem ofTokens_error_anchored (tokens : List Token) :
    Cursor.build tokens = Cursor.lift (ofTokens tokens) ∧
      ∀ e, ofTokens tokens = .error e → e.Anchored tokens ∧
        ∀ source l, Token.tokenize source = .ok tokens → e = .literal l →
          (∀ w, l.fault ≠ .badNumber w) ∧ ∀ w, l.fault = .integerRange w →
            w.toList ≠ [] ∧ (∀ c ∈ w.toList, c.isDigit = true) ∧
              2 ^ 63 ≤ Decimal.value w.toList := by
  refine ⟨Cursor.build_eq tokens, ?_⟩
  intro e he
  have hanchored := anchors_ofTokensAfter none tokens e he
  refine ⟨hanchored, ?_⟩
  rintro source l htokens rfl
  obtain ⟨t, ht, c, a, hkind, harg, -, hblames⟩ := hanchored
  exact (Source.lexical_of_tokenize htokens).digits_of_blames ht hkind harg hblames

/-- The integer after the largest one, as an operand on the second line; and a definition that ends
with its type. -/
theorem ofTokens_error_anchored_operand :
    (∃ tokens, Token.tokenize ":echo\n:const@0009223372036854775808" = .ok tokens ∧
      ofTokens tokens = .error (.literal ⟨.integerRange "0009223372036854775808", 2⟩) ∧
      BuildError.Anchored tokens (.literal ⟨.integerRange "0009223372036854775808", 2⟩) ∧
      2 ^ 63 ≤ Decimal.value "0009223372036854775808".toList) ∧
    ∃ tokens v, Token.tokenize ":echo:~0\n:define:static" = .ok tokens ∧
      ofTokens tokens = .error (.violation v) ∧ v.rule = .cannotBeLast ∧ v.line = 2 ∧
      v.token ∈ tokens := by
  let command (k : Keyword) (argument : Option Argument) (line : ℕ) : Token :=
    ⟨.command ⟨.keyword k, argument⟩, line⟩
  constructor
  · let tokens : List Token := [command .echo none 1,
      command .const (some ⟨.static, "0009223372036854775808"⟩) 2]
    have htokens : Token.tokenize ":echo\n:const@0009223372036854775808" = .ok tokens := by
      decide +kernel
    have herror : ofTokens tokens =
        .error (.literal ⟨.integerRange "0009223372036854775808", 2⟩) := by
      decide +kernel
    obtain ⟨hanchored, hsource⟩ := (ofTokens_error_anchored tokens).2 _ herror
    have hdigits := (hsource _ _ htokens rfl).2 _ rfl
    exact ⟨tokens, htokens, herror, hanchored, hdigits.2.2⟩
  · let tokens : List Token := [command .echo none 1, ⟨.reference ⟨.var, .index 0, false⟩, 1⟩,
      command .define none 2, command .static none 2]
    have herror : ofTokens tokens =
        .error (.violation (.ofToken .cannotBeLast (command .static none 2))) := by
      decide +kernel
    have hanchored := ((ofTokens_error_anchored tokens).2 _ herror).1
    exact ⟨tokens, _, by decide +kernel, herror, rfl, rfl, hanchored.token_mem⟩

end Tree

end ColonScript
