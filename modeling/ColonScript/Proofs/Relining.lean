import ColonScript.Proofs.RoundTrip

/-!
# Tokens that were not read from a source

Tokens can also be made by hand, with any payloads and on any lines.  This file says which of them
can be written as source and read again: those that are well spelled, which means that each
payload fits its kind (`TokenKind.WellSpelled`).

Their lines need not be those of a source.  They may go back, or start at zero; a token whose
line has passed is written on the line that was reached.  `Source.Relined` states by a recurrence
on which lines the tokens are read, and `tokenize_ofTokens_relined` that they are.
-/

namespace ColonScript

open Grammar

/-! ### Line ends by pairs -/

namespace Text

/-- The number of line ends, where a return and a line feed together count once. -/
def lineEnds : List Char → ℕ
  | [] => 0
  | '\r' :: '\n' :: more => lineEnds more + 1
  | c :: more => (if c = '\n' ∨ c = '\r' then 1 else 0) + lineEnds more

/-- Counting pairs is the same as remembering whether a return stands before. -/
lemma lineBreaks_eq_lineEnds (text : List Char) : lineBreaks text = lineEnds text := by
  fun_induction lineEnds text with
  | case1 => rfl
  | case2 more ih =>
    rw [← ih, lineBreaks_eq, lineBreaks_eq]
    simp [breaksAfter, Position.isBreak, Nat.add_comm]
  | case3 c more hpair ih =>
    have hhead : (c == '\r') = false ∨ more.head? ≠ some '\n' := by
      by_cases hreturn : c = '\r'
      · right
        intro hfeed
        obtain ⟨tail, rfl⟩ := List.head?_eq_some_iff.1 hfeed
        exact hpair tail hreturn rfl
      · left
        simpa using hreturn
    rw [← ih, lineBreaks_eq, breaksAfter, breaksAfter_eq_lineBreaks hhead]
    simp [Position.isBreak, or_comm]

end Text

/-! ### Well spelled tokens -/

/-- Digits with a point, and with a digit on at least one side of it. -/
def IsPointed (cs : List Char) : Prop :=
  ∃ whole fraction, cs = whole ++ '.' :: fraction ∧ (∀ c ∈ whole, c.isDigit = true) ∧
    (∀ c ∈ fraction, c.isDigit = true) ∧ (whole ≠ [] ∨ fraction ≠ [])

/-- A text that does not start like an argument of a known kind: not with a letter, an underscore,
a digit or a quote, and not with a tilde or a point before a digit. -/
def StartsUnlike : List Char → Prop
  | [] => True
  | c :: more => Lexeme.isWordChar c = false ∧ c.isDigit = false ∧ c ≠ '"' ∧
      (c = '~' ∨ c = '.' → ∀ d ∈ more.head?, d.isDigit = false)

/-- A payload that fits a kind of arguments. -/
def ArgKind.Fits : ArgKind → List Char → Prop
  | text, cs => Payload cs
  | word, cs => cs ≠ [] ∧ ∀ c ∈ cs, Lexeme.isWordChar c = true
  | index, cs | static, cs => cs ≠ [] ∧ ∀ c ∈ cs, c.isDigit = true
  | dynamic, cs => IsPointed cs
  | unknown, cs => cs ≠ [] ∧ (∀ c ∈ cs, Lexeme.isArgChar c = true) ∧ StartsUnlike cs

/-- A name as it is read: a small letter and then small letters and underscores, held as a keyword
if it is the spelling of one. -/
def CommandName.WellSpelled (name : CommandName) : Prop :=
  ∃ c more, name = ofWord (String.ofList (c :: more)) ∧ c.isLower = true ∧
    ∀ d ∈ more, d.isLower = true ∨ d = '_'

/-- A token that can be written and read again: any reference, and a command with a well spelled
name and an argument, if it has one, whose payload fits its kind. -/
def TokenKind.WellSpelled : TokenKind → Prop
  | reference _ => True
  | command c => c.name.WellSpelled ∧ ∀ a ∈ c.argument, a.kind.Fits a.payload.toList

namespace Grammar

/-- At the end of a text every run of one class is maximal. -/
lemma maximalRun_nil {p : Char → Bool} {run : List Char} (h : ∀ c ∈ run, p c = true) :
    MaximalRun p run [] :=
  ⟨h, by simp⟩

/-- A payload that fits its kind is spelled as an argument of that kind. -/
lemma argForm_of_fits {kind : ArgKind} {payload : List Char} (h : kind.Fits payload) :
    ArgForm kind payload (Argument.chars ⟨kind, String.ofList payload⟩) [] := by
  cases kind with
  | text => simpa [Argument.chars] using ArgForm.text h
  | word => simpa [Argument.chars] using ArgForm.word h.1 (maximalRun_nil h.2)
  | index => simpa [Argument.chars] using ArgForm.index h.1 (maximalRun_nil h.2)
  | dynamic =>
    obtain ⟨whole, fraction, rfl, hwhole, hfraction, hne⟩ := h
    simpa [Argument.chars] using ArgForm.dynamic hne hwhole (maximalRun_nil hfraction)
  | static => simpa [Argument.chars] using ArgForm.static h.1 (maximalRun_nil h.2)
  | unknown => simpa [Argument.chars] using ArgForm.unknown h.1 (maximalRun_nil h.2.1)

/-! ### Kinds that do not apply -/

section NotApplies

variable {c : Char} {more : List Char}

lemma not_applies_text (hc : c ≠ '"') : ¬ Applies .text (c :: more) := by
  intro h
  obtain ⟨tail, hcons, -⟩ := applies_text_iff.1 h
  exact hc (List.cons.inj hcons).1

lemma SpelledByRun.not_applies {kind : ArgKind} {p : Char → Bool} (hkind : SpelledByRun kind p)
    (hc : p c = false) : ¬ Applies kind (c :: more) := by
  intro h
  obtain ⟨d, tail, hcons, hd⟩ := hkind.applies_iff.1 h
  rw [← (List.cons.inj hcons).1, hc] at hd
  simp at hd

lemma not_applies_index (hc : c = '~' → ∀ d ∈ more.head?, d.isDigit = false) :
    ¬ Applies .index (c :: more) := by
  intro h
  obtain ⟨d, tail, hcons, hd⟩ := applies_index_iff.1 h
  obtain ⟨hmark, rfl⟩ := List.cons.inj hcons
  rw [hc hmark d rfl] at hd
  simp at hd

/-- Digits with a point start with a digit, or with the point before a digit. -/
lemma not_applies_dynamic (hdigit : c.isDigit = false)
    (hc : c = '.' → ∀ d ∈ more.head?, d.isDigit = false) : ¬ Applies .dynamic (c :: more) := by
  intro h
  obtain ⟨whole, tail, hcons, hwhole, hne⟩ := applies_dynamic_iff.1 h
  cases whole with
  | nil =>
    obtain ⟨hpoint, rfl⟩ := List.cons.inj hcons
    obtain ⟨d, hhead, hd⟩ := hne.resolve_left fun hnil => hnil rfl
    rw [hc hpoint d hhead] at hd
    simp at hd
  | cons d rest =>
    obtain ⟨rfl, -⟩ := List.cons.inj hcons
    rw [hwhole c (by simp)] at hdigit
    simp at hdigit

/-- Digits alone have no point. -/
lemma not_applies_dynamic_of_digits {cs : List Char} (h : ∀ c ∈ cs, c.isDigit = true) :
    ¬ Applies .dynamic cs := by
  intro happ
  obtain ⟨whole, tail, rfl, -⟩ := applies_dynamic_iff.1 happ
  have hpoint := h '.' (by simp)
  simp at hpoint

end NotApplies

/-- No letter is a digit. -/
lemma isWordChar_eq_false_of_isDigit {c : Char} (h : c.isDigit = true) :
    Lexeme.isWordChar c = false := by
  have hne : c ≠ '_' := by
    rintro rfl
    simp at h
  simp only [Char.isDigit] at h
  simp only [Lexeme.isWordChar, Char.isAlpha, Char.isUpper, Char.isLower]
  grind

/-- The kinds before static numbers do not apply at a digit, points apart. -/
lemma not_applies_of_isDigit {c : Char} {more : List Char} (h : c.isDigit = true) {kind : ArgKind}
    (hlt : rank kind < rank .dynamic) : ¬ Applies kind (c :: more) := by
  have hne {d : Char} (hd : d.isDigit = false) : c ≠ d := by
    rintro rfl
    rw [h] at hd
    simp at hd
  cases kind with
  | text => exact not_applies_text (hne (by decide))
  | word => exact spelledByRun_word.not_applies (isWordChar_eq_false_of_isDigit h)
  | index => exact not_applies_index fun hmark => absurd hmark (hne (by decide))
  | dynamic => simp at hlt
  | static => simp [rank] at hlt
  | unknown => simp [rank] at hlt

/-- A payload that fits its kind does not fit a kind that is tried before. -/
lemma not_applies_of_fits {kind lower : ArgKind} {payload : List Char} (h : kind.Fits payload)
    (hlt : rank lower < rank kind) :
    ¬ Applies lower (Argument.chars ⟨kind, String.ofList payload⟩) := by
  cases kind with
  | text => simp [rank] at hlt
  | word =>
    obtain ⟨c, more, rfl⟩ := List.exists_cons_of_ne_nil h.1
    have hquote : c ≠ '"' := by
      rintro rfl
      exact absurd (h.2 '"' (by simp)) (by decide)
    cases lower with
    | text => simpa [Argument.chars] using not_applies_text hquote
    | _ => simp [rank] at hlt
  | index =>
    cases lower with
    | text => exact not_applies_text (by decide)
    | word => exact spelledByRun_word.not_applies (by decide)
    | _ => simp [rank] at hlt
  | dynamic =>
    obtain ⟨whole, fraction, rfl, hwhole, -, -⟩ := h
    simp only [Argument.chars, String.toList_ofList]
    cases whole with
    | nil =>
      cases lower with
      | text => exact not_applies_text (by decide)
      | word => exact spelledByRun_word.not_applies (by decide)
      | index => exact not_applies_index (by simp)
      | _ => simp [rank] at hlt
    | cons c more => exact not_applies_of_isDigit (hwhole c (by simp)) hlt
  | static =>
    simp only [Argument.chars, String.toList_ofList]
    by_cases hdynamic : lower = .dynamic
    · rw [hdynamic]
      exact not_applies_dynamic_of_digits h.2
    · obtain ⟨c, more, rfl⟩ := List.exists_cons_of_ne_nil h.1
      refine not_applies_of_isDigit (h.2 c (by simp)) ?_
      cases lower <;> simp_all [rank]
  | unknown =>
    obtain ⟨hne, -, hstart⟩ := h
    obtain ⟨c, more, rfl⟩ := List.exists_cons_of_ne_nil hne
    obtain ⟨hword, hdigit, hquote, hmark⟩ := hstart
    simp only [Argument.chars, String.toList_ofList]
    cases lower with
    | text => exact not_applies_text hquote
    | word => exact spelledByRun_word.not_applies hword
    | index => exact not_applies_index fun htilde => hmark (.inl htilde)
    | dynamic => exact not_applies_dynamic hdigit fun hpoint => hmark (.inr hpoint)
    | static => exact spelledByRun_static.not_applies hdigit
    | unknown => simp at hlt

/-! ### Well spelled tokens are read as they are -/

/-- An argument whose payload fits its kind is spelled as itself. -/
lemma argumentForm_of_fits {a : Argument} (h : a.kind.Fits a.payload.toList) :
    ArgumentForm a a.chars [] := by
  obtain ⟨kind, payload⟩ := a
  have hform := argForm_of_fits h
  rw [String.ofList_toList] at hform
  refine ⟨hform, fun lower hlt => ?_⟩
  have hnot := not_applies_of_fits h hlt
  rw [String.ofList_toList] at hnot
  rwa [List.append_nil]

/-- Small letters and underscores are their own small letters. -/
lemma map_toLower_eq_self {cs : List Char} (h : ∀ c ∈ cs, c.isLower = true ∨ c = '_') :
    cs.map Char.toLower = cs := by
  refine (List.map_congr_left fun c hc => ?_).trans (List.map_id cs)
  rcases h c hc with hlower | rfl
  · exact Char.toLower_eq_of_not_isUpper (Char.not_isUpper_of_isLower hlower)
  · rfl

/-- A well spelled token is read as itself. -/
lemma kindForm_of_wellSpelled {kind : TokenKind} (h : kind.WellSpelled) :
    KindForm kind kind.chars [] := by
  cases kind with
  | reference r => exact .reference (referenceForm_chars r boundary_nil)
  | command cmd =>
    obtain ⟨name, argument⟩ := cmd
    obtain ⟨⟨c, more, rfl, hc, hmore⟩, hargument⟩ := h
    have hname : nameOf (c :: more) = CommandName.ofWord (String.ofList (c :: more)) := by
      rw [nameOf, map_toLower_eq_self (List.forall_mem_cons.2 ⟨.inl hc, hmore⟩)]
    have halpha : c.isAlpha = true := by simp [Char.isAlpha, hc]
    have hword : ∀ d ∈ more, Lexeme.isWordChar d = true := by
      intro d hd
      rcases hmore d hd with hlower | rfl
      · simp [Lexeme.isWordChar, Char.isAlpha, hlower]
      · decide
    have hspelled : (CommandName.ofWord (String.ofList (c :: more))).word.toList = c :: more := by
      rw [CommandName.word_ofWord, String.toList_ofList]
    refine .command ?_
    cases argument with
    | none =>
      have hform := CommandForm.bare halpha (maximalRun_nil hword) (by simp)
      rw [hname] at hform
      simpa only [TokenKind.chars, Command.chars, hspelled] using hform
    | some a =>
      have hform := CommandForm.argument halpha hword (argumentForm_of_fits (hargument a rfl))
      rw [hname] at hform
      simpa only [TokenKind.chars, Command.chars, hspelled] using hform

/-- No argument of a well spelled token starts with a quote unless it is a text. -/
lemma quoteTail?_of_wellSpelled {kind : TokenKind} (h : kind.WellSpelled) :
    kind.quoteTail? = none := by
  cases kind with
  | reference r => rfl
  | command cmd =>
    refine Option.bind_eq_none_iff.2 fun a ha => ?_
    rw [Option.eq_none_iff_forall_ne_some]
    intro tail htail
    obtain rfl := quoteTail?_eq_some_iff.1 htail
    obtain ⟨-, -, hstart⟩ := h.2 _ ha
    rw [String.toList_ofList] at hstart
    exact hstart.2.2.1 rfl

end Grammar

namespace Source

open Text

/-! ### The lines on which tokens are read -/

/-- The tokens that are read where `tokens` were written from the given line on.  They have the
same kinds; `reached i` is the line that was reached before token `i`, each token stands on its own
line or, if that has passed, on the line that was reached, and the line ends of its spelling come
after that. -/
def Relined (line : ℕ) (tokens read : List Token) : Prop :=
  read.length = tokens.length ∧ ∃ reached : ℕ → ℕ, reached 0 = line ∧
    ∀ i t u, tokens[i]? = some t → read[i]? = some u →
      u.kind = t.kind ∧ u.line = max (reached i) t.line ∧
        reached (i + 1) = u.line + lineEnds (spelled t)

lemma relined_nil_iff {line : ℕ} {read : List Token} : Relined line [] read ↔ read = [] := by
  constructor
  · rintro ⟨hlength, -⟩
    exact List.length_eq_zero_iff.1 hlength
  · rintro rfl
    exact ⟨rfl, fun _ => line, rfl, by simp⟩

/-- The first token is read on its line, and the others from the line on that it reaches. -/
lemma relined_cons_iff {line : ℕ} {t : Token} {tokens read : List Token} :
    Relined line (t :: tokens) read ↔
      ∃ others, read = ⟨t.kind, max line t.line⟩ :: others ∧
        Relined (max line t.line + lineEnds (spelled t)) tokens others := by
  constructor
  · rintro ⟨hlength, reached, rfl, hlines⟩
    cases read with
    | nil => simp at hlength
    | cons u others =>
      obtain ⟨hkind, hline, hnext⟩ := hlines 0 t u rfl rfl
      have hu : u = ⟨t.kind, max (reached 0) t.line⟩ := by rw [← hkind, ← hline]
      subst hu
      refine ⟨others, rfl, by simpa using hlength, fun i => reached (i + 1), hnext, ?_⟩
      intro i t' u' ht' hu'
      exact hlines (i + 1) t' u' (by simpa using ht') (by simpa using hu')
  · rintro ⟨others, rfl, hlength, reached, hstart, hlines⟩
    refine ⟨by simpa using hlength, fun i => i.casesOn line reached, rfl, ?_⟩
    intro i t' u' ht' hu'
    cases i with
    | zero =>
      obtain rfl : t = t' := by simpa using ht'
      obtain rfl : _ = u' := by simpa using hu'
      exact ⟨rfl, rfl, hstart⟩
    | succ i => exact hlines i t' u' (by simpa using ht') (by simpa using hu')

/-- The recurrence has one solution. -/
lemma relined_iff {line : ℕ} {tokens read : List Token} :
    Relined line tokens read ↔ read = reline line tokens := by
  induction tokens generalizing line read with
  | nil => exact relined_nil_iff
  | cons t rest ih =>
    rw [relined_cons_iff, reline, lineBreaks_eq_lineEnds]
    simp only [ih]
    constructor
    · rintro ⟨others, rfl, rfl⟩
      rfl
    · rintro rfl
      exact ⟨_, rfl, rfl⟩

/-- The quotes of well spelled tokens stay open. -/
lemma quotesStayOpen_of_wellSpelled {tokens : List Token}
    (h : ∀ t ∈ tokens, t.kind.WellSpelled) : QuotesStayOpen tokens := by
  induction tokens with
  | nil => trivial
  | cons t rest ih =>
    obtain ⟨ht, hrest⟩ := List.forall_mem_cons.1 h
    refine ⟨?_, ih hrest⟩
    simp [quoteTail?_of_wellSpelled ht]

/-- Well spelled tokens on any lines, written as source, are read as the same tokens on the lines
that the recurrence gives, and so as themselves exactly if their lines satisfy it. -/
theorem tokenize_ofTokens_relined {tokens : List Token} (hne : tokens ≠ [])
    (hspelled : ∀ t ∈ tokens, t.kind.WellSpelled) :
    ∃ read, Token.tokenize (ofTokens tokens) = .ok read ∧ Relined 1 tokens read ∧
      (Relined 1 tokens tokens ↔ read = tokens) := by
  have hlexical : Lexical tokens := fun t ht => kindForm_of_wellSpelled (hspelled t ht)
  have hread := (tokenize_ofTokens_eq_reline_iff hne hlexical).2
    (quotesStayOpen_of_wellSpelled hspelled)
  exact ⟨reline 1 tokens, hread, relined_iff.2 rfl, relined_iff.trans eq_comm⟩

/-- A text with two line ends on line zero, a reference on a line that they have passed, an unknown
argument two lines further and a command on a line before that. -/
theorem tokenize_ofTokens_relined_backward :
    ∃ tokens read : List Token, tokens ≠ [] ∧ (∀ t ∈ tokens, t.kind.WellSpelled) ∧
      Token.tokenize (ofTokens tokens) = .ok read ∧
      tokens.map Token.line = [0, 2, 5, 4] ∧ read.map Token.line = [1, 3, 5, 5] := by
  let tokens : List Token :=
    [⟨.command ⟨.keyword .const, some ⟨.text, "a\r\nb\rc"⟩⟩, 0⟩,
     ⟨.reference ⟨.var, .index 7, true⟩, 2⟩,
     ⟨.command ⟨.other "a_b", some ⟨.unknown, "~x\""⟩⟩, 5⟩,
     ⟨.command ⟨.keyword .echo, none⟩, 4⟩]
  have htext : Payload "a\r\nb\rc".toList := by
    iterate 6 refine .plain (by decide) (by decide) ?_
    exact .nil
  have hunknown : ArgKind.unknown.Fits "~x\"".toList := by
    simp [ArgKind.Fits, StartsUnlike, Lexeme.isArgChar, Lexeme.isWordChar, Text.isAsciiBlank]
  have hspelled : ∀ t ∈ tokens, t.kind.WellSpelled := by
    simp only [tokens, List.forall_mem_cons]
    refine ⟨⟨⟨'c', "onst".toList, by decide, by decide, by simp⟩, ?_⟩, trivial,
      ⟨⟨'a', "_b".toList, by decide, by decide, by simp⟩, ?_⟩,
      ⟨⟨'e', "cho".toList, by decide, by decide, by simp⟩, by simp⟩, by simp⟩
    · rintro a ⟨⟩
      exact htext
    · rintro a ⟨⟩
      exact hunknown
  obtain ⟨read, hread, hrelined, -⟩ := tokenize_ofTokens_relined (by simp [tokens]) hspelled
  refine ⟨tokens, read, by simp [tokens], hspelled, hread, rfl, ?_⟩
  rw [relined_iff.1 hrelined]
  decide +kernel

end Source

end ColonScript
