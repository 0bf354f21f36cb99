import ColonScript.Proofs.ByteReaders
import ColonScript.Proofs.LineNumbers

/-!
# Scanning by bytes

A scanner that walks over the bytes of a source and never looks at its characters.  What can go
wrong on such a walk is a `Breach`: a byte that is asked for outside of the source, a part that is
cut out in the middle of a character, and a form that does not lead on.

The scanner goes on byte by byte, so it comes to places inside of a character.  There it finds no
line end and no colon, and it passes over the whole character (`scanFrom_pass`).  Where a form
stands it takes the form (`scanFrom_take`).  So it keeps step with the scanner of characters
(`scanFrom_eq`), and no source leads to a breach (`scan_eq`).

`Lexeme.Lies` says what this means for a lexeme: it lies in the source, with a colon at its start,
and its ends and those of the name and the payload in it are places between characters.
-/

namespace ColonScript.ByteScan

open Text Lexeme

/-- The line after the units up to an offset. -/
def lineAfter (source : String) (stop i line : ℕ) : Except Breach ℕ :=
  if i < stop then
    match unit? source i with
    | none => .error (.outside i)
    | some '\r' =>
      if unit? source (i + 1) = some '\n' ∧ i + 1 < stop then
        lineAfter source stop (i + 2) (line + 1)
      else lineAfter source stop (i + 1) (line + 1)
    | some '\n' => lineAfter source stop (i + 1) (line + 1)
    | some _ => lineAfter source stop (i + 1) line
  else .ok line
termination_by stop - i

/-- The lexemes from an offset on, which is on the given line. -/
def scanFrom (source : String) (i line : ℕ) : Except Breach (List Lexeme) :=
  match _found : unit? source i with
  | none => .ok []
  | some '\r' =>
    if unit? source (i + 1) = some '\n' then scanFrom source (i + 2) (line + 1)
    else scanFrom source (i + 1) (line + 1)
  | some '\n' => scanFrom source (i + 1) (line + 1)
  | some ':' =>
    (form source i).bind fun
      | none => scanFrom source (i + 1) line
      | some (stop, kind) =>
        if _ahead : i < stop then
          (lineAfter source stop i line).bind fun after =>
            (scanFrom source stop after).map (⟨i, stop, kind.map (⟨·, line⟩)⟩ :: ·)
        else .error (.stalled i)
  | some _ => scanFrom source (i + 1) line
termination_by source.utf8ByteSize - i
decreasing_by
  all_goals
    have hlt := lt_of_unit? _found
    omega

/-- The lexemes of a source. -/
def scan (source : String) : Except Breach (Except SourceError (List Lexeme)) :=
  if source.utf8ByteSize = 0 then .ok (.error .empty) else (scanFrom source 0 1).map .ok

section

variable {source : String} {i : ℕ} {cs : List Char}

/-! ### Lines -/

/-- Other units leave the line as it is. -/
lemma lineAfter_step {stop line : ℕ} {u : Char} (hunit : unit? source i = some u)
    (hreturn : u ≠ '\r') (hfeed : u ≠ '\n') :
    lineAfter source stop i line = lineAfter source stop (i + 1) line := by
  by_cases hlt : i < stop
  · rw [lineAfter, if_pos hlt, hunit]
    split <;> simp_all
  · rw [lineAfter, if_neg hlt, lineAfter, if_neg (by omega)]

/-- A return ends the line, together with a line feed after it that is still to be read. -/
lemma lineAfter_of_return {stop line : ℕ} (hlt : i < stop) (hunit : unit? source i = some '\r') :
    lineAfter source stop i line =
      if unit? source (i + 1) = some '\n' ∧ i + 1 < stop then
        lineAfter source stop (i + 2) (line + 1)
      else lineAfter source stop (i + 1) (line + 1) := by
  rw [lineAfter, if_pos hlt, hunit]
  rfl

/-- A line feed ends the line. -/
lemma lineAfter_of_feed {stop line : ℕ} (hlt : i < stop) (hunit : unit? source i = some '\n') :
    lineAfter source stop i line = lineAfter source stop (i + 1) (line + 1) := by
  rw [lineAfter, if_pos hlt, hunit]
  rfl

/-- The line after a text is found without leaving the source. -/
lemma lineAfter_eq {text rest : List Char} (h : At source i (text ++ rest)) (line : ℕ) :
    lineAfter source (i + byteSize text) i line = .ok (line + lineEnds text) := by
  fun_induction lineEnds text generalizing i line with
  | case1 =>
    rw [lineAfter, if_neg (by simp)]
    rfl
  | case2 more ih =>
    have hreturn := h.unit?_cons (by decide)
    have hfeed := (h.tail (by decide)).unit?_cons (by decide)
    have hmore := (h.tail (by decide)).tail (by decide)
    rw [add_byteSize_cons (by decide), add_byteSize_cons (by decide),
      lineAfter_of_return (by omega) hreturn, if_pos ⟨hfeed, by omega⟩, ih hmore]
    congr 1
    omega
  | case3 c more hpair ih =>
    by_cases hreturn : c = '\r'
    · subst hreturn
      have hmore := h.tail (by decide)
      -- a line feed that comes next lies outside of the text
      have halone : ¬ (unit? source (i + 1) = some '\n' ∧ i + 1 < i + 1 + byteSize more) := by
        rintro ⟨hunit, hinside⟩
        cases more with
        | nil => simp at hinside
        | cons d tail =>
          obtain ⟨others, hd⟩ := (hmore.unit?_eq_some_iff (by decide)).1 hunit
          obtain ⟨rfl, -⟩ := List.cons.inj hd
          exact hpair tail rfl rfl
      rw [add_byteSize_cons (by decide), lineAfter_of_return (by omega) (h.unit?_cons (by decide)),
        if_neg halone, ih hmore, if_pos (.inr rfl), Nat.add_assoc]
    · by_cases hfeed : c = '\n'
      · subst hfeed
        rw [add_byteSize_cons (by decide), lineAfter_of_feed (by omega) (h.unit?_cons (by decide)),
          ih (h.tail (by decide)), if_pos (.inl rfl), Nat.add_assoc]
      · have hwalk : lineAfter source (i + byteSize (c :: more)) i line =
            lineAfter source (i + byteSize (c :: more)) (i + c.utf8Size) line := by
          apply At.walk (f := fun j => lineAfter source (i + byteSize (c :: more)) j line) h
          intro j u hu hunit
          exact lineAfter_step hunit (ne_of_mem_units (by decide) hreturn hu)
            (ne_of_mem_units (by decide) hfeed hu)
        rw [hwalk, byteSize_cons, ← Nat.add_assoc, ih h.next,
          if_neg (by simp [hreturn, hfeed]), Nat.zero_add]

/-! ### Lexemes -/

/-- At the end of the source there are no more lexemes. -/
lemma scanFrom_of_none {line : ℕ} (hunit : unit? source i = none) :
    scanFrom source i line = .ok [] := by
  rw [scanFrom]
  split <;> simp_all

/-- A return ends the line, together with a line feed after it. -/
lemma scanFrom_of_return {line : ℕ} (hunit : unit? source i = some '\r') :
    scanFrom source i line =
      if unit? source (i + 1) = some '\n' then scanFrom source (i + 2) (line + 1)
      else scanFrom source (i + 1) (line + 1) := by
  rw [scanFrom]
  split <;> simp_all

/-- A return and a line feed are passed over together. -/
lemma scanFrom_of_pair {more : List Char} (h : At source i ('\r' :: '\n' :: more)) (line : ℕ) :
    scanFrom source i line = scanFrom source (i + 2) (line + 1) := by
  have hfeed := (h.tail (by decide)).unit?_cons (by decide)
  rw [scanFrom_of_return (h.unit?_cons (by decide)), if_pos hfeed]

/-- A return without a line feed is passed over alone. -/
lemma scanFrom_of_lone_return {more : List Char} (h : At source i ('\r' :: more))
    (halone : more.head? ≠ some '\n') (line : ℕ) :
    scanFrom source i line = scanFrom source (i + 1) (line + 1) := by
  have hfeed : unit? source (i + 1) ≠ some '\n' := by
    intro hunit
    obtain ⟨tail, rfl⟩ := ((h.tail (by decide)).unit?_eq_some_iff (by decide)).1 hunit
    exact halone rfl
  rw [scanFrom_of_return (h.unit?_cons (by decide)), if_neg hfeed]

/-- A line feed ends the line. -/
lemma scanFrom_of_feed {line : ℕ} (hunit : unit? source i = some '\n') :
    scanFrom source i line = scanFrom source (i + 1) (line + 1) := by
  rw [scanFrom]
  split <;> simp_all

/-- A unit that is no line end and no colon is passed over. -/
lemma scanFrom_step {line : ℕ} {u : Char} (hunit : unit? source i = some u) (hreturn : u ≠ '\r')
    (hfeed : u ≠ '\n') (hcolon : u ≠ ':') :
    scanFrom source i line = scanFrom source (i + 1) line := by
  rw [scanFrom]
  split
  · next hnone => simp [hunit] at hnone
  · next hother => exact absurd (Option.some.inj (hunit.symm.trans hother)) hreturn
  · next hother => exact absurd (Option.some.inj (hunit.symm.trans hother)) hfeed
  · next hother => exact absurd (Option.some.inj (hunit.symm.trans hother)) hcolon
  · rfl

/-- A colon at which no form is read is passed over. -/
lemma scanFrom_of_no_form {line : ℕ} (hunit : unit? source i = some ':')
    (hform : form source i = .ok none) :
    scanFrom source i line = scanFrom source (i + 1) line := by
  rw [scanFrom]
  split <;> simp_all [Except.bind]

/-- A form that is read is a lexeme, and scanning goes on after it. -/
lemma scanFrom_of_form {line stop after : ℕ} {kind : Option TokenKind} {later : List Lexeme}
    (hunit : unit? source i = some ':') (hform : form source i = .ok (some (stop, kind)))
    (hahead : i < stop) (hline : lineAfter source stop i line = .ok after)
    (hlater : scanFrom source stop after = .ok later) :
    scanFrom source i line = .ok (⟨i, stop, kind.map (⟨·, line⟩)⟩ :: later) := by
  rw [scanFrom]
  split <;> simp_all [Except.bind, Except.map]

/-- The position after a form, which ends with no return. -/
lemma advance_form {kind : Option TokenKind} {text rest : List Char}
    (hform : Grammar.Form kind text rest) (p : Position) :
    p.advance text = ⟨p.line + lineEnds text, p.offset + byteSize text, false⟩ := by
  have hreturn := hform.endsInReturn_eq_false
  obtain ⟨more, rfl⟩ := hform.head
  have hline : (p.advance (':' :: more)).line = p.line + lineEnds (':' :: more) := by
    rw [Position.line_advance (.inr (by simp)), lineBreaks_eq_lineEnds]
  have hlast : (p.advance (':' :: more)).afterReturn = false := by
    rw [Position.afterReturn_advance]
    exact hreturn
  rw [← hline, ← Position.offset_advance, ← hlast]

/-- The scanner takes a form where one stands. -/
lemma scanFrom_take {kind : Option TokenKind} {text rest : List Char} {later : List Lexeme}
    {line : ℕ} (h : At source i (text ++ rest)) (hform : Grammar.Form kind text rest)
    (hlater : scanFrom source (i + byteSize text) (line + lineEnds text) = .ok later) :
    scanFrom source i line =
      .ok (⟨i, i + byteSize text, kind.map (⟨·, line⟩)⟩ :: later) := by
  have hline := lineAfter_eq h line
  have hread := Grammar.recognizes_form?.complete hform
  obtain ⟨more, rfl⟩ := hform.head
  rw [List.cons_append] at h hread
  have hfound := form_eq h
  rw [hread] at hfound
  have hahead : i < i + byteSize (':' :: more) := by
    rw [add_byteSize_cons (by decide)]
    omega
  exact scanFrom_of_form (h.unit?_cons (by decide)) hfound hahead hline hlater

/-- The scanner passes over a character that is no line end and where no form stands. -/
lemma scanFrom_pass {c : Char} {more : List Char} {line : ℕ} (h : At source i (c :: more))
    (hread : form? (c :: more) = none) (hreturn : c ≠ '\r') (hfeed : c ≠ '\n') :
    scanFrom source i line = scanFrom source (i + c.utf8Size) line := by
  by_cases hcolon : c = ':'
  · subst hcolon
    have hfound := form_eq h
    rw [hread] at hfound
    rw [scanFrom_of_no_form (h.unit?_cons (by decide)) hfound, utf8Size_of_ascii (by decide)]
  · apply At.walk (f := fun j => scanFrom source j line) h
    intro j u hu hunit
    exact scanFrom_step hunit (ne_of_mem_units (by decide) hreturn hu)
      (ne_of_mem_units (by decide) hfeed hu) (ne_of_mem_units (by decide) hcolon hu)

/-- From every place between characters the scanner finds the forms that follow. -/
lemma scanFrom_eq {afterReturn : Bool} (h : At source i cs)
    (hborder : afterReturn = false ∨ cs.head? ≠ some '\n') (line : ℕ) :
    scanFrom source i line = .ok (locate ⟨line, i, afterReturn⟩ (Piece.segment cs)) := by
  -- the induction is on the length, as a form or a pair takes several characters at once
  induction hlength : cs.length using Nat.strong_induction_on
    generalizing cs i afterReturn line with
  | _ n ih =>
    subst hlength
    cases cs with
    | nil =>
      rw [scanFrom_of_none h.unit?_nil, Piece.segment]
      rfl
    | cons c more =>
      cases hread : form? (c :: more) with
      | some m =>
        have hform : Grammar.Form m.value m.text m.rest := Grammar.recognizes_form?.sound hread
        have hsplits : m.text ++ m.rest = c :: more := form?_splits hread
        rw [← hsplits] at h
        have hlater := ih m.rest.length (length_rest_lt hread) h.append
          (.inl (rfl : false = false)) (line + lineEnds m.text) rfl
        rw [← hsplits, Piece.segment_form hform, locate, advance_form hform,
          scanFrom_take h hform hlater]
      | none =>
        rw [Piece.segment_skip hread, locate]
        by_cases hreturn : c = '\r'
        · subst hreturn
          have hmore := h.tail (by decide)
          by_cases hpair : more.head? = some '\n'
          · -- the pieces have the line feed of the pair as one more character
            obtain ⟨tail, rfl⟩ := List.head?_eq_some_iff.1 hpair
            have htail := ih tail.length (by simp) (hmore.tail (by decide))
              (.inl (rfl : false = false)) (line + 1) rfl
            rw [scanFrom_of_pair h, htail, Piece.segment_skip rfl, locate]
            rfl
          · rw [scanFrom_of_lone_return h hpair, ih more.length (by simp) hmore (.inr hpair) _ rfl]
            rfl
        · by_cases hfeed : c = '\n'
          · subst hfeed
            obtain rfl : afterReturn = false := by simpa using hborder
            rw [scanFrom_of_feed (h.unit?_cons (by decide)),
              ih more.length (by simp) (h.tail (by decide)) (.inl rfl) _ rfl]
            rfl
          · have hsame : Position.isBreak afterReturn c = false := by
              simp [Position.isBreak, hreturn, hfeed]
            rw [scanFrom_pass h hread hreturn hfeed,
              ih more.length (by simp) h.next (.inl (rfl : false = false)) _ rfl, Position.step,
              hsame, beq_eq_false_iff_ne.2 hreturn]
            rfl

end

/-- Scanning by bytes gives the lexemes of the source. -/
lemma scan_eq (source : String) : scan source = .ok (Lexeme.scan source) := by
  by_cases hempty : source = ""
  · subst hempty
    rfl
  · have hsize : source.utf8ByteSize ≠ 0 := by simpa using hempty
    have hall := scanFrom_eq (At.start source) (.inl (rfl : false = false)) 1
    have hscan : Lexeme.scan source = .ok (locate {} (Piece.segment source.toList)) :=
      Grammar.scan_eq_ok_iff.2 ⟨hempty, rfl⟩
    rw [scan, if_neg hsize, hall, hscan]
    rfl

end ColonScript.ByteScan

namespace ColonScript

open Text Grammar

/-- A command that is written between two offsets: its name can be cut out at the front, and the
payload of its argument, if it has one, later on. -/
def Command.Lies (source : String) (start stop : ℕ) (c : Command) : Prop :=
  ∃ mid spelled, start < mid ∧ mid ≤ stop ∧ cut source start mid = .ok spelled ∧
    c.name = nameOf spelled.toList ∧
    ∀ a ∈ c.argument, ∃ first last, mid < first ∧ first ≤ last ∧ last ≤ stop ∧
      cut source first last = .ok a.payload

/-- A lexeme that lies in a source, between characters. -/
structure Lexeme.Lies (source : String) (l : Lexeme) : Prop where
  start_lt_stop : l.start < l.stop
  stop_le : l.stop ≤ source.utf8ByteSize
  colon : unit? source l.start = some ':'
  start_isValid : String.Pos.Raw.IsValid source ⟨l.start⟩
  stop_isValid : String.Pos.Raw.IsValid source ⟨l.stop⟩
  command : ∀ t ∈ l.token, ∀ c, t.kind = .command c → c.Lies source (l.start + 1) l.stop

/-- The payload of an argument is a part of its spelling. -/
lemma Argument.exists_chars_eq (a : Argument) :
    ∃ front back, a.chars = front ++ (a.payload.toList ++ back) := by
  obtain ⟨kind, payload⟩ := a
  cases kind
  case text => exact ⟨['"'], ['"'], rfl⟩
  case index => exact ⟨['~'], [], by simp [Argument.chars]⟩
  all_goals exact ⟨[], [], by simp [Argument.chars]⟩

/-- The payload of an argument can be cut out where its form stands. -/
lemma Grammar.ArgumentForm.exists_cut {source : String} {i : ℕ} {a : Argument}
    {text rest : List Char} (hform : ArgumentForm a text rest) (h : At source i (text ++ rest)) :
    ∃ first last, i ≤ first ∧ first ≤ last ∧ last ≤ i + byteSize text ∧
      cut source first last = .ok a.payload := by
  obtain ⟨front, back, hchars⟩ := a.exists_chars_eq
  obtain rfl : text = front ++ (a.payload.toList ++ back) := hform.text_eq.trans hchars
  rw [List.append_assoc, List.append_assoc] at h
  have hcut := h.append.cut_eq
  rw [String.ofList_toList] at hcut
  refine ⟨_, _, ?_, ?_, ?_, hcut⟩
  · omega
  · omega
  · rw [byteSize_append, byteSize_append]
    omega

/-- A command lies where its form stands. -/
lemma Grammar.CommandForm.lies {source : String} {i : ℕ} {c : Command} {text rest : List Char}
    (hform : CommandForm c text rest) (h : At source i (text ++ rest)) :
    c.Lies source i (i + byteSize text) := by
  -- the name has at least one letter
  have hname (d : Char) (more : List Char) : i < i + byteSize (d :: more) := by
    have hpos := d.utf8Size_pos
    rw [byteSize_cons]
    omega
  cases hform with
  | @bare d more =>
    refine ⟨_, _, hname d more, le_rfl, h.cut_eq, ?_, ?_⟩
    · rw [String.toList_ofList]
    · simp
  | @argument d more text _ a _ _ harg =>
    rw [List.append_assoc] at h
    refine ⟨_, _, hname d more, ?_, h.cut_eq, ?_, ?_⟩
    · rw [byteSize_append]
      omega
    · rw [String.toList_ofList]
    · intro b hb
      obtain rfl : a = b := by simpa using hb
      have hmark := h.append
      rw [List.cons_append] at hmark
      obtain ⟨first, last, hfirst, horder, hlast, hcut⟩ :=
        harg.exists_cut (hmark.tail (by decide))
      refine ⟨first, last, hfirst, horder, ?_, hcut⟩
      rwa [byteSize_append, ← Nat.add_assoc, add_byteSize_cons (by decide)]
  | @dangling d more =>
    rw [List.append_assoc] at h
    refine ⟨_, _, hname d more, ?_, h.cut_eq, ?_, ?_⟩
    · rw [byteSize_append]
      omega
    · rw [String.toList_ofList]
    · simp

/-- A lexeme that covers a form lies in the source. -/
lemma Grammar.Covers.lies {source : String} {l : Lexeme} {before text after : List Char}
    {kind : Option TokenKind} (hcovers : Covers l source before text after)
    (hform : Form kind text after) (htoken : l.token = kind.map (⟨·, 1 + lineBreaks before⟩)) :
    l.Lies source := by
  have hstart : At source l.start (text ++ after) := ⟨before, hcovers.split, hcovers.start⟩
  have hstop : l.stop = l.start + byteSize text := by rw [hcovers.stop, hcovers.start]
  have hend := hstart.append
  rw [← hstop] at hend
  have hinside := hend.add_byteSize
  have hvalid := hstart.isValid
  obtain ⟨more, rfl⟩ := hform.head
  refine ⟨?_, ?_, hstart.unit?_cons (by decide), hvalid, hend.isValid, ?_⟩
  · rw [hstop, add_byteSize_cons (by decide)]
    omega
  · omega
  · intro t ht c hc
    rw [htoken, Option.mem_def, Option.map_eq_some_iff] at ht
    obtain ⟨kind, rfl, rfl⟩ := ht
    obtain rfl : kind = .command c := hc
    -- a token stands after one colon
    have hafter := hstart.tail (by decide)
    cases hform with
    | token hkind =>
      cases hkind with
      | command hcommand =>
        rw [hstop, add_byteSize_cons (by decide)]
        exact hcommand.lies hafter

/-- Scanning by bytes comes to its end on every source without a breach, and it gives what scanning
gives.  Only the empty source has no lexemes to give.  On any other the lexemes stand in order and
do not overlap, and each of them lies in the source, between characters. -/
theorem Lexeme.scan_without_breach (source : String) :
    ByteScan.scan source = .ok (scan source) ∧
      ((∃ lexemes, scan source = .ok lexemes) ↔ source ≠ "") ∧
      ∀ lexemes, scan source = .ok lexemes →
        lexemes.Pairwise (fun l r => l.stop ≤ r.start) ∧ ∀ l ∈ lexemes, l.Lies source := by
  refine ⟨ByteScan.scan_eq source, ⟨?_, ?_⟩, ?_⟩
  · rintro ⟨lexemes, hscan⟩
    exact (scan_eq_ok_iff.1 hscan).1
  · intro hne
    exact ⟨_, scan_eq_ok_iff.2 ⟨hne, rfl⟩⟩
  · intro lexemes hscan
    refine ⟨(scanned_of_scan hscan).ordered, ?_⟩
    intro l hl
    obtain ⟨before, text, after, kind, hcovers, hform, htoken⟩ := exists_covers hscan hl
    exact hcovers.lies hform htoken

end ColonScript
