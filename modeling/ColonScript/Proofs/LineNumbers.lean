import ColonScript.Proofs.Relining

/-!
# The lines of tokens

The line of a token is that of the colon with which it starts.  The scanner does not count the
line ends before that colon at once: it counts those between lexemes and those inside of
lexemes as it passes them.  This is the same because a pair of return and line feed never lies
across an end of a lexeme (`Form.lineEnds_append`): a lexeme starts with a colon, and it does not
end with a return.

`Lexeme.line_of_scan` states the lines of all tokens of a source by `Text.lineEnds`, which counts
the line ends of a text by pairs.
-/

namespace ColonScript

open Grammar Text

namespace Text

/-- A text has at least the line ends of its front part. -/
lemma lineEnds_le_append (first second : List Char) :
    lineEnds first ≤ lineEnds (first ++ second) := by
  rw [← lineBreaks_eq_lineEnds, ← lineBreaks_eq_lineEnds, lineBreaks_eq, lineBreaks_eq,
    breaksAfter_append]
  omega

end Text

namespace Grammar

/-- A lexeme does not end with a return. -/
lemma Form.endsInReturn_eq_false {kind : Option TokenKind} {text rest : List Char}
    (h : Form kind text rest) : endsInReturn false text = false := by
  cases h with
  | token hkind =>
    rw [endsInReturn]
    exact hkind.endsInReturn_text
  | silent hkind =>
    rw [endsInReturn, endsInReturn]
    exact hkind.endsInReturn_text

/-- No line end lies across an end of a lexeme, so those before it, in it and after it add up. -/
lemma Form.lineEnds_append {kind : Option TokenKind} {text rest : List Char}
    (h : Form kind text rest) (before : List Char) :
    lineEnds (before ++ (text ++ rest)) = lineEnds before + lineEnds text + lineEnds rest := by
  have hcolon : (text ++ rest).head? ≠ some '\n' := by
    obtain ⟨more, rfl⟩ := h.head
    simp
  have hfront := lineBreaks_append (.inr hcolon : endsInReturn false before = false ∨ _)
  have hback : lineBreaks (text ++ rest) = lineBreaks text + lineBreaks rest :=
    lineBreaks_append (.inl h.endsInReturn_eq_false)
  simp only [lineBreaks_eq_lineEnds] at hfront hback
  omega

namespace Covers

variable {source : String} {l r : Lexeme} {before text after before' text' after' : List Char}

/-- A lexeme that starts later has more of the source before it. -/
lemma isPrefix (hl : Covers l source before text after) (hr : Covers r source before' text' after')
    (hle : l.start ≤ r.start) : before <+: before' := by
  have hsame := hl.split.symm.trans hr.split
  have hbytes : byteSize before ≤ byteSize before' := by
    rw [← hl.start, ← hr.start]
    exact hle
  obtain ⟨gap, hgap, -⟩ := eq_append_of_byteSize_le hsame hbytes
  exact ⟨gap, hgap.symm⟩

end Covers

end Grammar

namespace Lexeme

/-- The line of a token of a source: one more than the line ends before its lexeme. -/
lemma exists_covers_line {source : String} {lexemes : List Lexeme}
    (hscan : scan source = .ok lexemes) {l : Lexeme} (hl : l ∈ lexemes) :
    ∃ before text after, Covers l source before text after ∧
      (∀ t ∈ l.token, t.line = 1 + lineEnds before) ∧
      lineEnds source.toList = lineEnds before + lineEnds text + lineEnds after := by
  obtain ⟨before, text, after, kind, hcovers, hform, htoken⟩ := exists_covers hscan hl
  refine ⟨before, text, after, hcovers, fun t ht => ?_, ?_⟩
  · rw [htoken] at ht
    obtain ⟨k, -, rfl⟩ := Option.map_eq_some_iff.1 ht
    rw [lineBreaks_eq_lineEnds]
  · rw [hcovers.split, hform.lineEnds_append before]

/-- The lines of two tokens stand in the order of their lexemes. -/
lemma line_le_of_start_le {source : String} {lexemes : List Lexeme}
    (hscan : scan source = .ok lexemes) {l r : Lexeme} (hl : l ∈ lexemes) (hr : r ∈ lexemes)
    (hle : l.start ≤ r.start) {t u : Token} (ht : t ∈ l.token) (hu : u ∈ r.token) :
    t.line ≤ u.line := by
  obtain ⟨before, text, after, hcovers, hline, -⟩ := exists_covers_line hscan hl
  obtain ⟨before', text', after', hcovers', hline', -⟩ := exists_covers_line hscan hr
  obtain ⟨gap, rfl⟩ := hcovers.isPrefix hcovers' hle
  have hmono := lineEnds_le_append before gap
  rw [hline t ht, hline' u hu]
  omega

/-- Line accounting.  The line of every token is one more than the number of line ends before its
lexeme, no matter where these stand, and no line end lies across an end of a lexeme.  So the lines
never go back and stay within the lines of the source. -/
theorem line_of_scan {source : String} {lexemes : List Lexeme}
    (hscan : scan source = .ok lexemes) :
    (∀ l ∈ lexemes, ∃ before text after, Covers l source before text after ∧
      (∀ t ∈ l.token, t.line = 1 + lineEnds before) ∧
      lineEnds source.toList = lineEnds before + lineEnds text + lineEnds after) ∧
    (lexemes.filterMap token).Pairwise (fun t u => t.line ≤ u.line) ∧
    ∀ t ∈ lexemes.filterMap token, t.line ≤ 1 + lineEnds source.toList := by
  refine ⟨fun l hl => exists_covers_line hscan hl, ?_, fun t ht => ?_⟩
  · have hscanned := scanned_of_scan hscan
    rw [List.pairwise_filterMap]
    refine hscanned.ordered.imp_of_mem fun {l r} hl hr hstop t ht u hu => ?_
    have hlong := hscanned.start_lt_stop hl
    exact line_le_of_start_le hscan hl hr (by omega) ht hu
  · obtain ⟨l, hl, htoken⟩ := List.mem_filterMap.1 ht
    obtain ⟨before, text, after, -, hline, hsum⟩ := exists_covers_line hscan hl
    rw [hline t htoken]
    omega

/-- Line ends of all three kinds stand before the last token of this source: a pair and a lone return
between lexemes, a pair in a quoted text, and a return and a line feed in a text after two
colons. -/
theorem line_of_scan_mixed_breaks :
    ∃ lexemes, scan "\r\n:a@\"x\r\ny\"\r::b@\"\r \n\":~0" = .ok lexemes ∧
      ⟨21, 24, some ⟨.reference ⟨.var, .index 0, false⟩, 6⟩⟩ ∈ lexemes ∧
      (∃ before text after,
        Covers ⟨21, 24, some ⟨.reference ⟨.var, .index 0, false⟩, 6⟩⟩
          "\r\n:a@\"x\r\ny\"\r::b@\"\r \n\":~0" before text after ∧ 6 = 1 + lineEnds before) ∧
      ∀ t ∈ lexemes.filterMap token,
        t.line ≤ 1 + lineEnds "\r\n:a@\"x\r\ny\"\r::b@\"\r \n\":~0".toList := by
  have hscan : scan "\r\n:a@\"x\r\ny\"\r::b@\"\r \n\":~0" =
      .ok [⟨2, 11, some ⟨.command ⟨.other "a", some ⟨.text, "x\r\ny"⟩⟩, 2⟩⟩, ⟨12, 21, none⟩,
        ⟨21, 24, some ⟨.reference ⟨.var, .index 0, false⟩, 6⟩⟩] := by decide +kernel
  obtain ⟨hlines, -, hbound⟩ := line_of_scan hscan
  obtain ⟨before, text, after, hcovers, hline, -⟩ := hlines _ (.tail _ (.tail _ (.head _)))
  exact ⟨_, hscan, .tail _ (.tail _ (.head _)), ⟨before, text, after, hcovers, hline _ rfl⟩, hbound⟩

end Lexeme

end ColonScript
