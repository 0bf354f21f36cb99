import ColonScript.Proofs.Escaping
import ColonScript.Proofs.ModeAgreement
import ColonScript.Proofs.Relining
import ColonScript.Proofs.ScriptCalls

/-!
# Literals that are printed

A script that only echoes literals prints them as they are: its source is cut into tokens, the
tokens are built into a tree, the tree becomes a program, and this prints the texts and the
numerals of the literals one after the other, whatever characters the texts consist of.  Only a
script that echoes nothing has no program.

A text with line ends moves the tokens after it to later lines, so the tokens that are read are
not on the lines of the script.  But they have the same kinds, and what a tree prints depends on
the kinds only (`Script.exists_tree_of_kinds`).
-/

namespace ColonScript

open Block

/-! ### Well spelled tokens of a script -/

/-- A keyword is well spelled. -/
lemma CommandName.wellSpelled_keyword (k : Keyword) : (keyword k).WellSpelled := by
  have hlower : ∀ c ∈ k.word.toList, c.isLower = true := by
    cases k <;> simp [Keyword.word]
  have hne : k.word.toList ≠ [] := by
    cases k <;> simp [Keyword.word]
  obtain ⟨c, more, hcons⟩ := List.exists_cons_of_ne_nil hne
  rw [hcons, List.forall_mem_cons] at hlower
  refine ⟨c, more, ?_, hlower.1, fun d hd => .inl (hlower.2 d hd)⟩
  rw [← hcons, String.ofList_toList, ofWord, Keyword.ofWord?_word]

/-- The payload of a literal fits its kind. -/
lemma Script.Literal.fits_argument (l : Literal) :
    l.argument.kind.Fits l.argument.payload.toList := by
  cases l with
  | text s => simpa [argument, ArgKind.Fits] using Grammar.payload_escape s.toList
  | integer n fits =>
    simp only [argument, ArgKind.Fits, String.toList_ofList]
    exact ⟨Decimal.digits_ne_nil _, fun c hc => Decimal.isDigit_of_mem_digits hc⟩

/-- A literal is well spelled. -/
lemma Script.Literal.wellSpelled_token (l : Literal) : l.token.kind.WellSpelled := by
  rw [l.kind_token]
  refine ⟨CommandName.wellSpelled_keyword .const, ?_⟩
  rintro a ⟨⟩
  exact l.fits_argument

namespace Source

/-- Well spelled tokens are read with the same kinds. -/
lemma tokenize_ofTokens_of_wellSpelled {tokens : List Token} (hne : tokens ≠ [])
    (hspelled : ∀ t ∈ tokens, t.kind.WellSpelled) :
    Token.tokenize (ofTokens tokens) = .ok (reline 1 tokens) := by
  have hlexical : Lexical tokens := fun t ht => Grammar.kindForm_of_wellSpelled (hspelled t ht)
  exact (tokenize_ofTokens_eq_reline_iff hne hlexical).2 (quotesStayOpen_of_wellSpelled hspelled)

lemma map_kind_reline (line : ℕ) (tokens : List Token) :
    (reline line tokens).map Token.kind = tokens.map Token.kind := by
  induction tokens generalizing line with
  | nil => rfl
  | cons t rest ih => rw [reline, List.map_cons, List.map_cons, ih]

end Source

/-! ### Printing -/

/-- An output without a limit takes some texts one after the other. -/
lemma Console.writeAll_join {c : Console} (hroom : c.room = none) (texts : List String) :
    c.writeAll texts = .ok { c with written := c.written ++ String.join texts } := by
  induction texts generalizing c with
  | nil => simp [writeAll]
  | cons text rest ih =>
    rw [writeAll, write_unlimited hroom]
    have hrest := ih (c := ⟨c.written ++ text, c.room⟩) hroom
    simpa only [String.join_cons, String.append_assoc] using hrest

namespace Script

/-- What a literal is printed as: the text itself, or the decimal numeral of the integer. -/
def Literal.display : Literal → String
  | text s => s
  | integer n _ => toString n.toNat

/-- The value of a literal is displayed as the literal. -/
lemma Literal.display_value (l : Literal) : l.value.display = l.display := by
  cases l with
  | text s => rfl
  | integer n fits =>
    have hmax : Int64.maxValue.toInt = 2 ^ 63 - 1 := by decide
    have hread : (Int64.ofInt n.toNat).toInt = n.toNat :=
      Int64.toInt_ofInt_of_le (by omega) (by omega)
    simp only [value, Value.display, hread, display]
    rfl

/-- A call of a script that prints literals. -/
inductive Print where
  | newline
  | echo (literals : List Literal) (ne_nil : literals ≠ [])

namespace Print

/-- The call as one of all calls. -/
def call : Print → Call
  | newline => .newline
  | echo literals ne_nil => .echo none (literals.map .literal) (by simpa using ne_nil)

/-- What a call prints. -/
def text : Print → String
  | newline => ""
  | echo literals _ => String.join (literals.map Literal.display)

/-- The kinds of the tokens of a call. -/
def kinds (p : Print) : List TokenKind :=
  p.call.tokens.map Token.kind

end Print

/-- The operands of literals have the values of the literals. -/
lemma mapM_eval_literals (mode : Mode) (store : Store) (literals : List Literal) :
    ((literals.map Item.literal).map Item.operand).mapM (Operand.eval mode store) =
      .ok (literals.map Literal.value) := by
  induction literals with
  | nil => rfl
  | cons l rest ih =>
    rw [List.map_cons, List.map_cons, List.mapM_cons, ih]
    rfl

/-- An `echo` of literals prints them. -/
lemma interpret_echo_literals (mode : Mode) {m : Machine} (hroom : m.console.room = none)
    (t : Token) (literals : List Literal) :
    (Node.echo t none ((literals.map Item.literal).map Item.operand)).interpret mode m =
      .ok { m with console :=
        ⟨m.console.written ++ String.join (literals.map Literal.display), none⟩ } := by
  have hdisplay : (literals.map Literal.value).map Value.display =
      literals.map Literal.display := by
    simp [Function.comp_def, Literal.display_value]
  refine Node.interpret_echo_eq_ok_iff.2
    ⟨_, _, mapM_eval_literals mode m.store literals, ?_, rfl⟩
  rw [Console.echo, hdisplay, Console.writeAll_join hroom, hroom]

/-- Tokens that have the kinds of the tokens of some items were written for them. -/
lemma Item.forall₂_writtenAs {items : List Item} {run : List Token}
    (h : run.map Token.kind = (items.map Item.token).map Token.kind) :
    List.Forall₂ Item.WrittenAs items run := by
  have hkinds : List.Forall₂ (· = ·) (run.map Token.kind)
      (items.map fun item => item.token.kind) := by
    rw [List.forall₂_eq_eq_eq, h, List.map_map]
    rfl
  rw [List.forall₂_map_left_iff, List.forall₂_map_right_iff] at hkinds
  exact hkinds.flip

/-- Tokens that have the kinds of some calls start with an `echo` without a format. -/
lemma not_continues_of_kinds {prints : List Print} {ts : List Token}
    (h : ts.map Token.kind = prints.flatMap Print.kinds) : ∀ t ∈ ts.head?, ¬ Continues t := by
  induction prints generalizing ts with
  | nil =>
    obtain rfl : ts = [] := by simpa using h
    simp
  | cons p rest ih =>
    cases p with
    | newline => exact ih h
    | echo literals ne_nil =>
      obtain ⟨t, more, rfl, ht, -⟩ := List.map_eq_cons_iff.1 h
      rintro _ ⟨⟩
      exact not_continues_of_kind (ht.trans (kind_echoToken none)) (by decide)

/-- Tokens that have the kinds of some calls, on any lines, are built into a tree that prints what
the calls print. -/
lemma exists_tree_of_kinds {prints : List Print} {ts : List Token}
    (h : ts.map Token.kind = prints.flatMap Print.kinds) (before : Option Token) :
    ∃ tree, Tree.ofTokensAfter before ts = .ok tree ∧
      ∀ (mode : Mode) (m : Machine), m.console.room = none →
        tree.interpret mode m = .ok { m with console :=
          ⟨m.console.written ++ String.join (prints.map Print.text), none⟩ } := by
  induction prints generalizing ts before with
  | nil =>
    obtain rfl : ts = [] := by simpa using h
    refine ⟨[], by rw [Tree.ofTokensAfter], fun mode m hroom => ?_⟩
    simp [Tree.interpret, ← hroom]
  | cons p others ih =>
    cases p with
    | newline =>
      obtain ⟨tree, hbuild, hprint⟩ := ih h before
      refine ⟨tree, hbuild, fun mode m hroom => ?_⟩
      rw [hprint mode m hroom]
      simp [Print.text]
    | echo literals ne_nil =>
      obtain ⟨block, rest, rfl, hblock, hrest⟩ := List.map_eq_append_iff.1 h
      obtain ⟨t, run, rfl, ht, hrun⟩ := List.map_eq_cons_iff.1 hblock
      have hform : Form before (.echo t none ((literals.map Item.literal).map Item.operand))
          (t :: run) rest := by
        have hall := form_echo before ht (by simpa using ne_nil) (Item.forall₂_writtenAs hrun)
          (List.forall_mem_nil _) .nil (not_continues_of_kinds hrest)
        simpa only [List.append_nil] using hall
      obtain ⟨tree, hbuild, hprint⟩ := ih hrest (t :: run).getLast?
      refine ⟨_, ofTokensAfter_append hform hbuild, fun mode m hroom => ?_⟩
      refine Tree.interpret_cons_eq_ok_iff.2
        ⟨_, interpret_echo_literals mode hroom t literals, ?_⟩
      rw [hprint mode _ rfl]
      simp only [List.map_cons, Print.text, String.join_cons, String.append_assoc]

/-! ### From the calls to the printed text -/

/-- The tokens that calls write have the kinds of the calls, whatever the lines. -/
lemma map_kind_written (line : ℕ) (prints : List Print) :
    (written line (prints.map Print.call)).map Token.kind = prints.flatMap Print.kinds := by
  induction prints generalizing line with
  | nil => rfl
  | cons p rest ih =>
    rw [List.map_cons, written, List.map_append, ih, List.flatMap_cons, List.map_map]
    rfl

/-- All kinds of the tokens of a call are well spelled. -/
lemma Print.wellSpelled_of_mem_kinds {p : Print} {kind : TokenKind} (h : kind ∈ p.kinds) :
    kind.WellSpelled := by
  cases p with
  | newline => simp [kinds, call, Call.tokens] at h
  | echo literals ne_nil =>
    simp only [kinds, call, Call.tokens, List.map_cons, List.map_map, List.mem_cons,
      List.mem_map] at h
    rcases h with rfl | ⟨l, -, rfl⟩
    · rw [kind_echoToken]
      exact ⟨CommandName.wellSpelled_keyword .echo, by simp⟩
    · exact l.wellSpelled_token

/-- A call writes no token exactly if it is a newline. -/
lemma Print.kinds_eq_nil_iff (p : Print) : p.kinds = [] ↔ p = .newline := by
  cases p <;> simp [kinds, call, Call.tokens]

end Script

/-- The source text of no tokens has no program. -/
lemma Program.ofSource_no_tokens (settings : Settings) :
    ofSource (Source.ofTokens []) settings = .error (.source .empty) := rfl

/-- A source text whose tokens are built into a tree has the program of the tree. -/
lemma Program.ofSource_eq_ok {source : String} {tokens : List Token} {tree : Tree}
    (hne : tokens ≠ []) (hread : Token.tokenize source = .ok tokens)
    (hbuild : Tree.ofTokens tokens = .ok tree) (settings : Settings) :
    ofSource source settings = .ok (ofTree tree settings) := by
  have hsome : Token.tokenizeSome source = .ok tokens := by
    rw [Token.tokenizeSome, hread]
    split
    · next hnil => exact absurd (Except.ok.inj hnil) hne
    · rfl
  simp only [ofSource, Tree.ofSource, Tree.parse, Token.ofSource, hsome, hbuild, Except.map]

namespace Script

/-- The source of tokens that have the kinds of some calls has a program, and this prints what the
calls print. -/
lemma exists_program_of_kinds {prints : List Print} {tokens : List Token} (hne : tokens ≠ [])
    (h : tokens.map Token.kind = prints.flatMap Print.kinds) (settings : Settings)
    (arguments : List String) :
    ∃ program, Program.ofSource (Source.ofTokens tokens) settings = .ok program ∧
      program.run arguments = .ok (String.join (prints.map Print.text)) := by
  have hspelled : ∀ t ∈ tokens, t.kind.WellSpelled := by
    intro t ht
    have hmem : t.kind ∈ prints.flatMap Print.kinds := h ▸ List.mem_map_of_mem ht
    obtain ⟨p, -, hp⟩ := List.mem_flatMap.1 hmem
    exact Print.wellSpelled_of_mem_kinds hp
  have hread := Source.tokenize_ofTokens_of_wellSpelled hne hspelled
  -- The tokens that are read stand on other lines, but the tree does not depend on these.
  have hkinds := Source.map_kind_reline 1 tokens
  have hsome : Source.reline 1 tokens ≠ [] := by
    intro hnil
    rw [hnil, List.map_nil] at hkinds
    exact hne (List.map_eq_nil_iff.1 hkinds.symm)
  obtain ⟨tree, hbuild, hprint⟩ := exists_tree_of_kinds (hkinds.trans h) none
  refine ⟨_, Program.ofSource_eq_ok hsome hread hbuild settings, ?_⟩
  refine Program.run_ofTree_eq_ok_iff.2 ⟨_, hprint settings.mode _ rfl, ?_⟩
  simp [Machine.initial]

/-- Compiling the source of a script that only echoes literals gives a program that prints the
literals as they are, in both modes and with all program arguments, exactly if the script echoes
at all: without an `echo` its source is empty. -/
theorem run_prints (prints : List Print) (settings : Settings) (arguments : List String) :
    (∃ program, Program.ofSource (ofCalls (prints.map Print.call)).toSource settings = .ok program ∧
      program.run arguments = .ok (String.join (prints.map Print.text))) ↔
      ∃ p ∈ prints, p ≠ .newline := by
  have hkinds : (ofCalls (prints.map Print.call)).tokens.map Token.kind =
      prints.flatMap Print.kinds := by
    rw [ofCalls, tokens_foldl_perform]
    exact map_kind_written 1 prints
  rw [toSource]
  generalize (ofCalls (prints.map Print.call)).tokens = tokens at hkinds
  have hempty : tokens = [] ↔ ∀ p ∈ prints, p = .newline := by
    rw [← List.map_eq_nil_iff, hkinds, List.flatMap_eq_nil_iff]
    simp only [Print.kinds_eq_nil_iff]
  constructor
  · rintro ⟨program, hcompile, -⟩
    by_contra hnone
    obtain rfl : tokens = [] := hempty.2 (by simpa using hnone)
    rw [Program.ofSource_no_tokens] at hcompile
    cases hcompile
  · rintro ⟨p, hp, hecho⟩
    have hne : tokens ≠ [] := fun hnil => hecho (hempty.1 hnil p hp)
    exact exists_program_of_kinds hne hkinds settings arguments

example :
    let prints : List Print := [
      .echo [.text "\"\\\":a@%d\r\n", .integer 9223372036854775807 (by decide)] (by simp),
      .newline,
      .echo [.text "é\\"] (by simp)]
    (Program.ofSource (ofCalls (prints.map Print.call)).toSource {}).toOption.map (·.run []) =
      some (.ok "\"\\\":a@%d\r\n9223372036854775807é\\") := by
  decide +kernel

/-- The script without any call has an empty source, and this has no program, although there is
nothing to print. -/
theorem ofSource_toSource_no_prints :
    let prints : List Print := []
    String.join (prints.map Print.text) = "" ∧
      Program.ofSource (ofCalls (prints.map Print.call)).toSource {} =
        .error (.source .empty) := by
  constructor <;> decide +kernel

end Script

end ColonScript
