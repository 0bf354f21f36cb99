import ColonScript.Source
import ColonScript.Proofs.Scanning
import ColonScript.Proofs.Spelling

/-!
# Tokens written as source and read again

`Source.ofTokens` writes each token on its line.  Reading the result gives the tokens back, on
the lines that `Source.reline` computes, which are their own lines if they come from a source.

There is one exception.  An unknown argument may start with a quote, because the quotation was
spoilt by something after the argument, such as a backslash in the text between two tokens.
Only tokens are written back, so the spoiling text may be gone, and a quote of a later token
then closes the quotation.  `Source.QuotesStayOpen` says that this does not happen, and
`tokenize_ofTokens_iff` that it is exactly what reading back depends on.
-/

namespace ColonScript

open Grammar Text

/-! ### Reading token by token -/

namespace Piece

/-- A form is the first piece of a text that starts with it. -/
lemma segment_form {kind : Option TokenKind} {text rest : List Char} (h : Form kind text rest) :
    segment (text ++ rest) = .form text kind :: segment rest := by
  have hread := recognizes_form?.complete h
  obtain ⟨more, rfl⟩ := h.head
  rw [List.cons_append] at hread ⊢
  rw [segment]
  split
  · next m hm =>
    obtain rfl := Option.some.inj (hread.symm.trans hm)
    rfl
  · next hnone =>
    rw [hread] at hnone
    simp at hnone

/-- A character at which no form stands is a piece of its own. -/
lemma segment_skip {c : Char} {more : List Char} (h : Lexeme.form? (c :: more) = none) :
    segment (c :: more) = .skipped c :: segment more := by
  rw [segment]
  split
  · next m hm =>
    rw [h] at hm
    simp at hm
  · rfl

end Piece

/-- The tokens of a text that starts at the given position. -/
def Token.readFrom (p : Position) (cs : List Char) : List Token :=
  (Lexeme.locate p (Piece.segment cs)).filterMap Lexeme.token

namespace Token

@[simp] lemma readFrom_nil (p : Position) : readFrom p [] = [] := by
  rw [readFrom, Piece.segment]
  rfl

/-- A form gives its token, if it stands for one, and reading goes on after it. -/
lemma readFrom_form (p : Position) {kind : Option TokenKind} {text rest : List Char}
    (h : Form kind text rest) :
    readFrom p (text ++ rest) =
      (kind.map (⟨·, p.line⟩)).toList ++ readFrom (p.advance text) rest := by
  rw [readFrom, Piece.segment_form h]
  cases kind <;> simp [Lexeme.locate, readFrom]

/-- A character at which no form stands is skipped. -/
lemma readFrom_skip (p : Position) {c : Char} {more : List Char}
    (h : Lexeme.form? (c :: more) = none) :
    readFrom p (c :: more) = readFrom (p.step c) more := by
  rw [readFrom, Piece.segment_skip h]
  rfl

/-- No form stands at a line feed. -/
lemma form?_lineFeed (more : List Char) : Lexeme.form? ('\n' :: more) = none := rfl

/-- Line feeds are skipped. -/
lemma readFrom_lineFeeds (p : Position) (n : ℕ) (more : List Char) :
    readFrom p (List.replicate n '\n' ++ more) =
      readFrom (p.advance (List.replicate n '\n')) more := by
  induction n generalizing p with
  | zero => rfl
  | succ n ih =>
    rw [List.replicate_succ, List.cons_append, readFrom_skip p (form?_lineFeed _), ih]
    rfl

/-- The tokens of a source that is not empty are those of its characters. -/
lemma tokenize_eq {source : String} (hne : source ≠ "") :
    tokenize source = .ok (readFrom {} source.toList) := by
  have hscan := scan_eq_ok_iff.2 ⟨hne, rfl⟩
  rw [tokenize, hscan]
  rfl

end Token

/-! ### The lines of written tokens -/

namespace Source

/-- The tokens as they are read again when they are written from the given line on: a token
whose line has passed stands on the line that was reached. -/
def reline (line : ℕ) : List Token → List Token
  | [] => []
  | t :: rest =>
    ⟨t.kind, max line t.line⟩ :: reline (max line t.line + lineBreaks (spelled t)) rest

/-- Whether every quote with which an unknown argument starts stays open in what is written
after it. -/
def QuotesStayOpen : List Token → Prop
  | [] => True
  | t :: rest =>
    (∀ tail ∈ t.kind.quoteTail?, Quoted.closing? (tail ++ rest.flatMap spelled) = none) ∧
      QuotesStayOpen rest

/-- Whether the spellings of tokens, alone, read as these tokens. -/
def Lexical (tokens : List Token) : Prop :=
  ∀ t ∈ tokens, KindForm t.kind t.kind.chars []

end Source

/-! ### Line ends in spellings -/

/-- The part of a spelling in which line ends can occur. -/
def TokenKind.argumentChars : TokenKind → List Char
  | reference _ => []
  | command c => c.argument.elim [] Argument.chars

namespace Grammar

/-- A class that ends at boundaries and excludes returns holds inline characters only. -/
lemma isInline_of_class {p : Char → Bool} (hp : EndsAtBoundary p) (hreturn : p '\r' = false)
    {cs : List Char} (h : ∀ c ∈ cs, p c = true) : ∀ c ∈ cs, isInline c = true := by
  intro c hc
  have hpc := h c hc
  simp only [isInline, Bool.and_eq_true, bne_iff_ne]
  constructor
  · rintro rfl
    rw [hp.2] at hpc
    simp at hpc
  · rintro rfl
    rw [hreturn] at hpc
    simp at hpc

/-- A reference consists of digits and four other characters. -/
lemma ReferenceForm.isDigit_or_mem {r : Reference} {text rest : List Char}
    (h : ReferenceForm r text rest) : ∀ c ∈ text, c.isDigit = true ∨ c ∈ ['^', '~', '&', '-'] := by
  have hslot {id : SlotId} {slot : List Char} (h : SlotForm id slot rest) :
      ∀ c ∈ slot, c.isDigit = true ∨ c ∈ ['^', '~', '&', '-'] := by
    cases h with
    | index hne hrun hfits => exact fun c hc => .inl (hrun.all c hc)
    | argCount => simp
  have hsigil (s : Sigil) : s.char.isDigit = true ∨ s.char ∈ ['^', '~', '&', '-'] := by
    cases s <;> decide
  cases h with
  | inner h => exact List.forall_mem_cons.2 ⟨hsigil _, hslot h⟩
  | outer h => exact List.forall_mem_cons.2 ⟨by decide, List.forall_mem_cons.2 ⟨hsigil _, hslot h⟩⟩

/-- References are inline. -/
lemma ReferenceForm.isInline {r : Reference} {text rest : List Char}
    (h : ReferenceForm r text rest) : ∀ c ∈ text, Text.isInline c = true := by
  refine isInline_of_class (p := fun c => c.isDigit || decide (c ∈ ['^', '~', '&', '-'])) ?_
    (by decide) fun c hc => ?_
  · constructor <;> decide
  · simpa using h.isDigit_or_mem c hc

/-- Names are inline. -/
lemma isInline_name {c : Char} {more : List Char} (hc : c.isAlpha = true)
    (hmore : ∀ d ∈ more, Lexeme.isWordChar d = true) : ∀ d ∈ c :: more, isInline d = true := by
  have hfirst : Lexeme.isWordChar c = true := by simp [Lexeme.isWordChar, hc]
  exact isInline_of_class endsAtBoundary_isWordChar (by decide)
    (List.forall_mem_cons.2 ⟨hfirst, hmore⟩)

/-- A spelling is inline up to its argument. -/
lemma KindForm.exists_front {kind : TokenKind} {text rest : List Char}
    (h : KindForm kind text rest) :
    ∃ front, (∀ c ∈ front, isInline c = true) ∧ text = front ++ kind.argumentChars := by
  have hat : ∀ c ∈ ['@'], isInline c = true := by simp [isInline]
  cases h with
  | reference href => exact ⟨text, href.isInline, by simp [TokenKind.argumentChars]⟩
  | command hcmd =>
    cases hcmd with
    | bare hc hrun hat => exact ⟨_, isInline_name hc hrun.all, by simp [TokenKind.argumentChars]⟩
    | @argument c more inner _ a hc hmore harg =>
      refine ⟨c :: more ++ ['@'], List.forall_mem_append.2 ⟨isInline_name hc hmore, hat⟩, ?_⟩
      simp [TokenKind.argumentChars, harg.text_eq]
    | @dangling c more _ hc hmore hnone =>
      refine ⟨c :: more ++ ['@'], List.forall_mem_append.2 ⟨isInline_name hc hmore, hat⟩, ?_⟩
      simp [TokenKind.argumentChars]

/-- A lexeme has as many line ends as the spelling of its token. -/
lemma Form.lineBreaks_eq {t : Token} {text rest : List Char} (h : Form (some t.kind) text rest) :
    lineBreaks text = lineBreaks (Source.spelled t) := by
  cases h with
  | @token _ inner _ hkind =>
    obtain ⟨front, hfront, rfl⟩ := hkind.exists_front
    obtain ⟨front', hfront', hchars⟩ := hkind.alone.exists_front
    have hcolon : isInline ':' = true := by decide
    rw [Source.spelled, hchars, ← List.cons_append, ← List.cons_append,
      lineBreaks_inline_append (List.forall_mem_cons.2 ⟨hcolon, hfront⟩),
      lineBreaks_inline_append (List.forall_mem_cons.2 ⟨hcolon, hfront'⟩)]

/-- An argument does not end with a return. -/
lemma ArgForm.endsInReturn_eq_false {kind : ArgKind} {payload text rest : List Char}
    (h : ArgForm kind payload text rest) : endsInReturn false text = false := by
  have hrun {p : Char → Bool} {run : List Char} (hp : EndsAtBoundary p) (hreturn : p '\r' = false)
      (hall : ∀ c ∈ run, p c = true) : endsInReturn false run = false :=
    Text.endsInReturn_eq_false (isInline_of_class hp hreturn hall)
  cases h with
  | text hpayload => rw [endsInReturn_append]; rfl
  | word hne h => exact hrun endsAtBoundary_isWordChar (by decide) h.all
  | index hne h =>
    rw [endsInReturn]
    exact hrun endsAtBoundary_isDigit (by decide) h.all
  | dynamic hne hwhole h =>
    rw [endsInReturn_append, endsInReturn]
    exact hrun endsAtBoundary_isDigit (by decide) h.all
  | static hne h => exact hrun endsAtBoundary_isDigit (by decide) h.all
  | unknown hne h => exact hrun endsAtBoundary_isArgChar (by decide) h.all

/-- The argument of a token does not end with a return. -/
lemma KindForm.endsInReturn_argumentChars {kind : TokenKind} {text rest : List Char}
    (h : KindForm kind text rest) : endsInReturn false kind.argumentChars = false := by
  cases h with
  | reference => rfl
  | command hcmd =>
    cases hcmd with
    | bare => rfl
    | argument hc hmore harg =>
      have hend := harg.form.endsInReturn_eq_false
      rwa [harg.text_eq] at hend
    | dangling => rfl

/-- What follows the colons of a lexeme does not end with a return. -/
lemma KindForm.endsInReturn_text {kind : TokenKind} {text rest : List Char}
    (h : KindForm kind text rest) : endsInReturn false text = false := by
  obtain ⟨front, hfront, rfl⟩ := h.exists_front
  rw [endsInReturn_append, Text.endsInReturn_eq_false hfront, h.endsInReturn_argumentChars]

/-- A written token does not end with a return. -/
lemma KindForm.endsInReturn_spelled {t : Token} (h : KindForm t.kind t.kind.chars []) :
    endsInReturn false (Source.spelled t) = false := by
  rw [Source.spelled, endsInReturn]
  exact h.endsInReturn_text

end Grammar

/-! ### Quotes across line feeds -/

namespace Source

/-- A search for a closing quote passes over line feeds. -/
lemma closing?_lineFeeds (n : ℕ) (cs : List Char) :
    Quoted.closing? (List.replicate n '\n' ++ cs) = none ↔ Quoted.closing? cs = none := by
  induction n with
  | zero => rfl
  | succ n ih =>
    rw [List.replicate_succ, List.cons_append, closing?_plain (by decide) (by decide)]
    simpa using ih

/-- Before a boundary, whether a quote is closed depends only on whether one is after it. -/
lemma closing?_append_congr (cs : List Char) {after after' : List Char} (hb : Boundary after)
    (hb' : Boundary after')
    (h : Quoted.closing? after = none ↔ Quoted.closing? after' = none) :
    Quoted.closing? (cs ++ after) = none ↔ Quoted.closing? (cs ++ after') = none := by
  -- a backslash at the end of `cs` spoils the quotation on both sides
  have hslash {rest : List Char} (hrest : Boundary rest) :
      Quoted.closing? ('\\' :: rest) = none := by
    cases rest with
    | nil => rfl
    | cons c more => rcases hrest c rfl with rfl | rfl <;> rfl
  fun_induction Quoted.closing? cs with
  | case1 => simpa using h
  | case2 more => simp [Quoted.closing?]
  | case3 c more hescaped ih => simpa [Quoted.closing?, hescaped] using ih
  | case4 c more hplain => simp [Quoted.closing?, hplain]
  | case5 more hquote hnext =>
    cases more with
    | nil => simp [hslash hb, hslash hb']
    | cons c tail => exact absurd rfl (hnext c tail rfl)
  | case6 c more hquote _ hplain ih =>
    rw [List.cons_append, List.cons_append, closing?_plain hquote hplain,
      closing?_plain hquote hplain]
    simpa using ih

/-- What is written for tokens is a boundary for what stands before it. -/
lemma boundary_chars (line : ℕ) (tokens : List Token) : Boundary (chars line tokens ++ ['\n']) := by
  cases tokens with
  | nil => exact boundary_cons (.inr rfl)
  | cons t rest =>
    rw [chars]
    cases t.line - line with
    | zero => exact boundary_cons (.inl rfl)
    | succ n => exact boundary_cons (.inr rfl)

/-- The spellings of tokens are a boundary for what stands before them. -/
lemma boundary_spelled (tokens : List Token) : Boundary (tokens.flatMap spelled) := by
  cases tokens with
  | nil => exact boundary_nil
  | cons t rest => exact boundary_cons (.inl rfl)

/-- Whether a quote is closed does not depend on the lines on which tokens are written. -/
lemma closing?_chars_iff (tail : List Char) (line : ℕ) (tokens : List Token) :
    Quoted.closing? (tail ++ (chars line tokens ++ ['\n'])) = none ↔
      Quoted.closing? (tail ++ tokens.flatMap spelled) = none := by
  refine closing?_append_congr tail (boundary_chars line tokens) (boundary_spelled tokens) ?_
  induction tokens generalizing line with
  | nil => simp [chars, Quoted.closing?]
  | cons t rest ih =>
    rw [chars, List.append_assoc, List.append_assoc, closing?_lineFeeds, List.flatMap_cons]
    exact closing?_append_congr _ (boundary_chars _ rest) (boundary_spelled rest) (ih _)

/-! ### Reading written tokens -/

/-- A written token is read again, and reading goes on after it, exactly if its quote stays
open. -/
lemma readFrom_spelled_iff {t : Token} (ht : KindForm t.kind t.kind.chars []) (p : Position)
    {after : List Char} (hb : Boundary after) (others : List Token) :
    Token.readFrom p (spelled t ++ after) = ⟨t.kind, p.line⟩ :: others ↔
      (∀ tail ∈ t.kind.quoteTail?, Quoted.closing? (tail ++ after) = none) ∧
        Token.readFrom (p.advance (spelled t)) after = others := by
  by_cases hopen : ∀ tail ∈ t.kind.quoteTail?, Quoted.closing? (tail ++ after) = none
  · have hform : Form (some t.kind) (spelled t) after := .token (ht.reread hb hopen)
    rw [Token.readFrom_form p hform, and_iff_right hopen]
    simp
  · -- the first token read has another kind
    refine iff_of_false ?_ fun h => hopen h.1
    push Not at hopen
    obtain ⟨tail, htail, hclosed⟩ := hopen
    obtain ⟨other, text, rest, hsplit, hkind, hne⟩ := ht.reread_closed htail hclosed
    have hform : Form (some other) (':' :: text) rest := .token hkind
    rw [spelled, List.cons_append, ← hsplit, ← List.cons_append, Token.readFrom_form p hform]
    intro hsame
    obtain ⟨hhead, -⟩ := List.cons.inj hsame
    exact hne (congrArg Token.kind hhead)

/-- The line feeds before a token lead to its line, or to the line reached if that is later. -/
lemma advance_lineFeeds {p : Position} (hreturn : p.afterReturn = false) (line : ℕ) :
    (p.advance (List.replicate (line - p.line) '\n')).line = max p.line line ∧
      (p.advance (List.replicate (line - p.line) '\n')).afterReturn = false := by
  constructor
  · rw [Position.line_advance (.inl hreturn), lineBreaks_replicate]
    omega
  · rw [Position.afterReturn_advance, hreturn]
    cases line - p.line with
    | zero => rfl
    | succ n => rw [List.replicate_succ', endsInReturn_append]; rfl

/-- Tokens that are written from a line on are read again on the lines of `reline`, exactly if
their quotes stay open. -/
lemma readFrom_chars_iff {tokens : List Token} (hlexical : Lexical tokens) {p : Position}
    (hreturn : p.afterReturn = false) :
    Token.readFrom p (chars p.line tokens ++ ['\n']) = reline p.line tokens ↔
      QuotesStayOpen tokens := by
  induction tokens generalizing p with
  | nil =>
    rw [chars, List.nil_append, Token.readFrom_skip p (Token.form?_lineFeed _)]
    simp [reline, QuotesStayOpen]
  | cons t rest ih =>
    obtain ⟨ht, hrest⟩ := List.forall_mem_cons.1 hlexical
    obtain ⟨hline, hfeed⟩ := advance_lineFeeds hreturn t.line
    generalize hq : p.advance (List.replicate (t.line - p.line) '\n') = q at hline hfeed
    have hcolon : (spelled t).head? ≠ some '\n' := by simp [spelled]
    have hafter : (q.advance (spelled t)).line = max p.line t.line + lineBreaks (spelled t) := by
      rw [Position.line_advance (.inr hcolon), hline]
    have hend : (q.advance (spelled t)).afterReturn = false := by
      rw [Position.afterReturn_advance, hfeed, ht.endsInReturn_spelled]
    rw [chars, List.append_assoc, List.append_assoc, Token.readFrom_lineFeeds, hq, reline,
      ← hafter, ← hline, readFrom_spelled_iff ht q (boundary_chars _ rest), ih hrest hend]
    simp only [closing?_chars_iff, QuotesStayOpen]

/-! ### Tokens of a source -/

/-- The tokens of a source are lexical. -/
lemma lexical_readFrom (p : Position) (cs : List Char) : Lexical (Token.readFrom p cs) := by
  induction cs using Piece.segment.induct generalizing p with
  | case1 => simp [Lexical]
  | case2 c more m hread ih =>
    have hform : Form m.value m.text m.rest := recognizes_form?.sound hread
    have hsplits : m.text ++ m.rest = c :: more := Lexeme.form?_splits hread
    rw [← hsplits, Token.readFrom_form p hform]
    obtain ⟨value, text, rest⟩ := m
    cases hform with
    | token hkind => exact List.forall_mem_cons.2 ⟨hkind.alone, ih _⟩
    | silent => exact ih _
  | case3 c more hread ih =>
    rw [Token.readFrom_skip p hread]
    exact ih _

/-- The tokens of a source stand on lines on which they can be written. -/
lemma reline_readFrom {line : ℕ} {p : Position} (hline : line ≤ p.line) (cs : List Char) :
    reline line (Token.readFrom p cs) = Token.readFrom p cs := by
  induction cs using Piece.segment.induct generalizing p line with
  | case1 => simp [reline]
  | case2 c more m hread ih =>
    have hform : Form m.value m.text m.rest := recognizes_form?.sound hread
    have hsplits : m.text ++ m.rest = c :: more := Lexeme.form?_splits hread
    have hmono := p.line_le_advance m.text
    rw [← hsplits, Token.readFrom_form p hform]
    generalize hvalue : m.value = value at hform ⊢
    cases value with
    | none => exact ih (le_trans hline hmono)
    | some kind =>
      have hbreaks := hform.lineBreaks_eq (t := ⟨kind, p.line⟩)
      have hcolon : m.text.head? ≠ some '\n' := by
        obtain ⟨tail, htail⟩ := hform.head
        simp [htail]
      have hafter := Position.line_advance (.inr hcolon : p.afterReturn = false ∨ _)
      simp only [Option.map_some, Option.toList_some, List.singleton_append, reline]
      rw [max_eq_right hline, ih (by rw [hafter, hbreaks])]
  | case3 c more hread ih =>
    have hmono := p.line_le_advance [c]
    rw [Token.readFrom_skip p hread]
    exact ih (le_trans hline hmono)

/-- Tokens are written as their characters, with a line feed at the end. -/
lemma ofTokens_eq {tokens : List Token} (hne : tokens ≠ []) :
    ofTokens tokens = String.ofList (chars 1 tokens ++ ['\n']) := by
  rw [ofTokens, if_neg (by simpa using hne)]

/-- Writing tokens that are lexical and reading them gives them back on the lines of `reline`,
exactly if their quotes stay open. -/
lemma tokenize_ofTokens_eq_reline_iff {tokens : List Token} (hne : tokens ≠ [])
    (hlexical : Lexical tokens) :
    Token.tokenize (ofTokens tokens) = .ok (reline 1 tokens) ↔ QuotesStayOpen tokens := by
  have hwritten : ofTokens tokens ≠ "" := by
    rw [ofTokens_eq hne]
    intro hempty
    simpa using congrArg String.toList hempty
  have hiff := readFrom_chars_iff hlexical (p := {}) rfl
  rw [Token.tokenize_eq hwritten, Except.ok.injEq, ofTokens_eq hne, String.toList_ofList]
  exact hiff

/-- The tokens of a source, written as source again, are read as the same tokens on the same
lines exactly if no quote with which an unknown argument starts is closed by the tokens after
it. -/
theorem tokenize_ofTokens_iff {source : String} {tokens : List Token}
    (hread : Token.tokenize source = .ok tokens) (hne : tokens ≠ []) :
    Token.tokenize (ofTokens tokens) = .ok tokens ↔ QuotesStayOpen tokens := by
  have hsource : source ≠ "" := by
    rintro rfl
    simp [Token.tokenize, Lexeme.scan, Except.map] at hread
  rw [Token.tokenize_eq hsource, Except.ok.injEq] at hread
  subst hread
  have hlines : reline 1 (Token.readFrom {} source.toList) = Token.readFrom {} source.toList :=
    reline_readFrom (p := {}) le_rfl _
  have hiff := tokenize_ofTokens_eq_reline_iff hne (lexical_readFrom _ _)
  rwa [hlines] at hiff

/-- A text over two lines and a quote that nothing closes are read back. -/
theorem tokenize_ofTokens_open_quote :
    ∃ tokens, Token.tokenize ":a@\"x\ny\" junk :B@\"z" = .ok tokens ∧ tokens ≠ [] ∧
      QuotesStayOpen tokens ∧ Token.tokenize (ofTokens tokens) = .ok tokens := by
  have hread : Token.tokenize ":a@\"x\ny\" junk :B@\"z" =
      .ok [⟨.command ⟨.other "a", some ⟨.text, "x\ny"⟩⟩, 1⟩,
        ⟨.command ⟨.other "b", some ⟨.unknown, "\"z"⟩⟩, 2⟩] := by decide +kernel
  refine ⟨_, hread, List.cons_ne_nil _ _, ?_⟩
  rw [tokenize_ofTokens_iff hread (List.cons_ne_nil _ _), and_self]
  refine ⟨?_, ?_, trivial⟩ <;> decide +kernel

/-- A quote that was spoilt by the text between two tokens is closed by the quote of the second
token once that text is gone: the two tokens are read back as one. -/
theorem tokenize_ofTokens_closed_quote :
    ∃ tokens, Token.tokenize ":a@\" \\ :b@\"" = .ok tokens ∧ tokens ≠ [] ∧
      Token.tokenize (ofTokens tokens) ≠ .ok tokens := by
  have hread : Token.tokenize ":a@\" \\ :b@\"" =
      .ok [⟨.command ⟨.other "a", some ⟨.unknown, "\""⟩⟩, 1⟩,
        ⟨.command ⟨.other "b", some ⟨.unknown, "\""⟩⟩, 1⟩] := by decide +kernel
  exact ⟨_, hread, List.cons_ne_nil _ _, by decide +kernel⟩

end Source

end ColonScript
