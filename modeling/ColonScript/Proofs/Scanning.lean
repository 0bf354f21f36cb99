import ColonScript.Proofs.Grammar
import ColonScript.Proofs.Position

/-!
# Scanning finds the leftmost forms

`Scanned` says what the lexemes of a source are, without an order of work: each is a form at
its place, no two overlap, and at no colon outside of them does a form stand.  There is exactly
one such list, and it is the one that scanning gives (`scan_unique`).

The relation is stated for a text after a part `before` that has been dealt with.  It then
follows the scanner: a character without a form is skipped (`scanned_skip_iff`) and a form is
taken (`scanned_take_iff`).

`Covers` says which part of a source lies between the offsets of a lexeme; for every lexeme that
is found, this part is a form (`exists_covers`).
-/

namespace ColonScript.Grammar

open Text (byteSize lineBreaks)

/-- The lexeme of a form with the given text after `before`. -/
def lexemeAt (before text : List Char) (kind : Option TokenKind) : Lexeme where
  start := byteSize before
  stop := byteSize before + byteSize text
  token := kind.map (⟨·, 1 + lineBreaks before⟩)

/-- The lexemes of the text `cs` that stands after `before`. -/
structure Scanned (before cs : List Char) (lexemes : List Lexeme) : Prop where
  /-- Every lexeme is a form at its place, with the token of that form. -/
  forms : ∀ l ∈ lexemes, ∃ mid text rest kind,
    cs = mid ++ (text ++ rest) ∧ Form kind text rest ∧ l = lexemeAt (before ++ mid) text kind
  /-- The lexemes stand in order and do not overlap. -/
  ordered : lexemes.Pairwise fun l r => l.stop ≤ r.start
  /-- No form starts at a colon outside of the lexemes. -/
  complete : ∀ mid after, cs = mid ++ ':' :: after →
    (∀ l ∈ lexemes, byteSize (before ++ mid) < l.start ∨ l.stop ≤ byteSize (before ++ mid)) →
    ∀ kind text rest, text ++ rest = ':' :: after → ¬ Form kind text rest

namespace Scanned

variable {before cs : List Char} {lexemes : List Lexeme}

/-- No lexeme starts in the part that has been dealt with. -/
lemma le_start (h : Scanned before cs lexemes) {l : Lexeme} (hl : l ∈ lexemes) :
    byteSize before ≤ l.start := by
  obtain ⟨mid, text, rest, kind, -, -, rfl⟩ := h.forms l hl
  simp [lexemeAt]

/-- No lexeme is empty. -/
lemma start_lt_stop (h : Scanned before cs lexemes) {l : Lexeme} (hl : l ∈ lexemes) :
    l.start < l.stop := by
  obtain ⟨mid, text, rest, kind, -, hform, rfl⟩ := h.forms l hl
  obtain ⟨more, rfl⟩ := hform.head
  have hpos := Char.utf8Size_pos ':'
  simp only [lexemeAt, Text.byteSize_cons]
  omega

end Scanned

/-- The empty text has no lexemes. -/
lemma scanned_nil_iff {before : List Char} {lexemes : List Lexeme} :
    Scanned before [] lexemes ↔ lexemes = [] := by
  constructor
  · intro h
    cases lexemes with
    | nil => rfl
    | cons l more =>
      obtain ⟨mid, text, rest, kind, hcs, hform, -⟩ := h.forms l (by simp)
      obtain ⟨tail, rfl⟩ := hform.head
      simp at hcs
  · rintro rfl
    exact ⟨by simp, List.Pairwise.nil, by simp⟩

/-- Where no form stands, the lexemes are those after the next character. -/
lemma scanned_skip_iff {before more : List Char} {c : Char} {lexemes : List Lexeme}
    (hnone : ∀ kind text rest, text ++ rest = c :: more → ¬ Form kind text rest) :
    Scanned before (c :: more) lexemes ↔ Scanned (before ++ [c]) more lexemes := by
  have hmove (mid : List Char) : before ++ c :: mid = before ++ [c] ++ mid := by simp
  constructor
  · intro h
    refine ⟨fun l hl => ?_, h.ordered, fun mid after hmid hout => ?_⟩
    · obtain ⟨mid, text, rest, kind, hcs, hform, rfl⟩ := h.forms l hl
      cases mid with
      | nil => exact absurd hform (hnone kind text rest hcs.symm)
      | cons d mid =>
        obtain ⟨rfl, hmore⟩ := List.cons.inj hcs
        exact ⟨mid, text, rest, kind, hmore, hform, by rw [hmove]⟩
    · rw [← hmove] at hout
      exact h.complete (c :: mid) after (by rw [hmid]; rfl) hout
  · intro h
    refine ⟨fun l hl => ?_, h.ordered, fun mid after hmid hout => ?_⟩
    · obtain ⟨mid, text, rest, kind, hcs, hform, rfl⟩ := h.forms l hl
      exact ⟨c :: mid, text, rest, kind, by rw [hcs]; rfl, hform, by rw [hmove mid]⟩
    · cases mid with
      | nil =>
        intro kind text rest hsplit
        exact hnone kind text rest (hsplit.trans hmid.symm)
      | cons d mid =>
        obtain ⟨rfl, hmore⟩ := List.cons.inj hmid
        rw [hmove] at hout
        exact h.complete mid after hmore hout

/-- Where a form stands, it is the first lexeme. -/
lemma Scanned.head_eq {before text rest : List Char} {kind : Option TokenKind}
    {lexemes : List Lexeme} (hform : Form kind text rest)
    (h : Scanned before (text ++ rest) lexemes) :
    ∃ others, lexemes = lexemeAt before text kind :: others := by
  -- the colon of the form lies in some lexeme, or no form would stand there
  obtain ⟨l, hl, hstart, hstop⟩ : ∃ l ∈ lexemes, l.start ≤ byteSize before ∧
      byteSize before < l.stop := by
    by_contra hout
    obtain ⟨more, rfl⟩ := hform.head
    refine h.complete [] (more ++ rest) rfl ?_ kind _ rest rfl hform
    intro l hl
    rw [List.append_nil]
    by_contra hin
    exact hout ⟨l, hl, by omega⟩
  -- that lexeme starts there as well, so it is the one of the form
  obtain ⟨mid, text', rest', kind', hcs, hform', rfl⟩ := h.forms l hl
  obtain rfl : mid = [] := by
    simp only [lexemeAt, Text.byteSize_append] at hstart
    exact Text.byteSize_eq_zero_iff.1 (by omega)
  rw [List.nil_append] at hcs
  obtain ⟨rfl, rfl, rfl⟩ := Form.unique hcs hform hform'
  -- and no lexeme stands before it
  obtain ⟨first, others, rfl⟩ := List.exists_cons_of_ne_nil (List.ne_nil_of_mem hl)
  rcases List.mem_cons.1 hl with hfirst | hlater
  · exact ⟨others, by rw [← hfirst, List.append_nil]⟩
  · have horder := List.rel_of_pairwise_cons h.ordered hlater
    have hlow := h.le_start (l := first) (by simp)
    have hlong := h.start_lt_stop (l := first) (by simp)
    omega

/-- Where a form stands, the lexemes are the one of the form and those after it. -/
lemma scanned_take_iff {before text rest : List Char} {kind : Option TokenKind}
    {lexemes : List Lexeme} (hform : Form kind text rest) :
    Scanned before (text ++ rest) lexemes ↔
      ∃ others, lexemes = lexemeAt before text kind :: others ∧
        Scanned (before ++ text) rest others := by
  constructor
  · intro h
    obtain ⟨others, rfl⟩ := h.head_eq hform
    refine ⟨others, rfl, fun l hl => ?_, h.ordered.of_cons, fun mid after hmid hout => ?_⟩
    · have hafter := List.rel_of_pairwise_cons h.ordered hl
      obtain ⟨mid, text', rest', kind', hcs, hform', rfl⟩ := h.forms l (List.mem_cons_of_mem _ hl)
      simp only [lexemeAt, Text.byteSize_append] at hafter
      obtain ⟨gap, rfl, hrest⟩ := Text.eq_append_of_byteSize_le hcs (by omega)
      exact ⟨gap, text', rest', kind', hrest, hform', by rw [List.append_assoc]⟩
    · refine h.complete (text ++ mid) after (by rw [hmid, List.append_assoc]) ?_
      rw [← List.append_assoc]
      intro l hl
      rcases List.mem_cons.1 hl with rfl | hlater
      · right
        simp [lexemeAt]
      · exact hout l hlater
  · rintro ⟨others, rfl, h⟩
    refine ⟨fun l hl => ?_, List.pairwise_cons.2 ⟨fun l hl => ?_, h.ordered⟩,
      fun mid after hmid hout => ?_⟩
    · rcases List.mem_cons.1 hl with rfl | hlater
      · exact ⟨[], text, rest, kind, rfl, hform, by rw [List.append_nil]⟩
      · obtain ⟨mid, text', rest', kind', hcs, hform', rfl⟩ := h.forms l hlater
        exact ⟨text ++ mid, text', rest', kind', by rw [hcs, List.append_assoc], hform',
          by rw [List.append_assoc]⟩
    · have hlow := h.le_start hl
      simpa [lexemeAt] using hlow
    · -- a colon outside of the form stands after it
      have hfirst := hout (lexemeAt before text kind) (by simp)
      simp only [lexemeAt, Text.byteSize_append] at hfirst
      obtain ⟨gap, rfl, hrest⟩ := Text.eq_append_of_byteSize_le hmid (by omega)
      rw [← List.append_assoc] at hout
      exact h.complete gap after hrest fun l hl => hout l (List.mem_cons_of_mem _ hl)

/-- The position after a text, as it is reached from the start of the source. -/
lemma line_advance_start (before : List Char) :
    (Text.Position.advance {} before).line = 1 + lineBreaks before :=
  Text.Position.line_advance (.inl rfl)

/-- Scanning gives the lexemes of a text, and only they satisfy `Scanned`. -/
lemma scanned_iff_eq_locate (before cs : List Char) (lexemes : List Lexeme) :
    Scanned before cs lexemes ↔
      lexemes = Lexeme.locate (Text.Position.advance {} before) (Piece.segment cs) := by
  fun_induction Piece.segment cs generalizing before lexemes with
  | case1 => exact scanned_nil_iff
  | case2 c more m hread ih =>
    have hform : Form m.value m.text m.rest := recognizes_form?.sound hread
    have hsplits : m.text ++ m.rest = c :: more := Lexeme.form?_splits hread
    rw [← hsplits, scanned_take_iff hform]
    simp only [ih, Lexeme.locate, Text.Position.advance_append, line_advance_start,
      Text.Position.offset_advance, lexemeAt]
    constructor
    · rintro ⟨others, rfl, rfl⟩
      simp
    · intro h
      exact ⟨_, by simpa using h, rfl⟩
  | case3 c more hread ih =>
    rw [scanned_skip_iff (recognizes_form?.eq_none_iff.1 hread), ih, Lexeme.locate,
      Text.Position.advance_append]
    rfl

/-- Scanning succeeds on every source that is not empty, and locates its pieces. -/
lemma scan_eq_ok_iff {source : String} {lexemes : List Lexeme} :
    Lexeme.scan source = .ok lexemes ↔
      source ≠ "" ∧ Lexeme.locate {} (Piece.segment source.toList) = lexemes := by
  by_cases hempty : source = ""
  · simp [Lexeme.scan, hempty]
  · have hne : source.isEmpty = false := by simpa using hempty
    simp [Lexeme.scan, hne, hempty]

/-- The lexemes of a source are those of its characters. -/
lemma scanned_of_scan {source : String} {lexemes : List Lexeme}
    (hscan : Lexeme.scan source = .ok lexemes) : Scanned [] source.toList lexemes :=
  (scanned_iff_eq_locate [] source.toList lexemes).2 (scan_eq_ok_iff.1 hscan).2.symm

/-- A lexeme covers a part of a source: that part stands between its two offsets. -/
structure Covers (l : Lexeme) (source : String) (before text after : List Char) : Prop where
  split : source.toList = before ++ (text ++ after)
  start : l.start = byteSize before
  stop : l.stop = byteSize before + byteSize text

/-- Every lexeme of a source covers a form, and its token is the one of that form. -/
lemma exists_covers {source : String} {lexemes : List Lexeme}
    (hscan : Lexeme.scan source = .ok lexemes) {l : Lexeme} (hl : l ∈ lexemes) :
    ∃ before text after kind, Covers l source before text after ∧ Form kind text after ∧
      l.token = kind.map (⟨·, 1 + lineBreaks before⟩) := by
  obtain ⟨before, text, after, kind, hsplit, hform, rfl⟩ := (scanned_of_scan hscan).forms l hl
  exact ⟨before, text, after, kind, ⟨hsplit, rfl, rfl⟩, hform, rfl⟩

/-- Scanning a source that is not empty gives its lexemes: the forms that stand at a colon,
from left to right and without overlap, and no other list of lexemes meets that description. -/
theorem scan_unique {source : String} (hne : source ≠ "") :
    ∃ lexemes, Lexeme.scan source = .ok lexemes ∧
      ∀ others, Scanned [] source.toList others ↔ others = lexemes := by
  have hempty : source.isEmpty = false := by simpa using hne
  refine ⟨Lexeme.locate {} (Piece.segment source.toList), ?_, fun others => ?_⟩
  · simp [Lexeme.scan, hempty]
  · exact scanned_iff_eq_locate [] source.toList others

/-- In this source a quotation is not closed, a command stands after two colons, and a reference
has a number that is too large. -/
theorem scan_unique_mixed_source :
    ":a@\"x ::b@.5 :~18446744073709551616 :^&-1" ≠ "" ∧
      ∃ lexemes, Lexeme.scan ":a@\"x ::b@.5 :~18446744073709551616 :^&-1" = .ok lexemes ∧
        ∀ others, Scanned [] ":a@\"x ::b@.5 :~18446744073709551616 :^&-1".toList others ↔
          others = lexemes := by
  have hne : ":a@\"x ::b@.5 :~18446744073709551616 :^&-1" ≠ "" := by decide
  exact ⟨hne, scan_unique hne⟩

end ColonScript.Grammar
