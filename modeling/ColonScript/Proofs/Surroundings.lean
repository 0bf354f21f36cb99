import ColonScript.Proofs.RoundTrip

/-!
# Lexemes in other surroundings

What is read at a colon depends on what comes after it: a run goes on as long as it can, and a
quotation is a text only if a later quote closes it.  `Replaces rest' rest` says that one rest
of a source can stand in place of another, and `Replaces.form` that forms which end before the one
end before the other.

* The empty text replaces every rest.  So a lexeme that is cut out of its source is read as the
  same lexeme (`scan_slice`).
* A colon that is put before a lexeme changes no form before it (`replaces_doubled`) and makes no
  new one there (`form?_doubled_eq_none`).  So it takes the token from this lexeme and leaves all
  others as they are (`tokenize_doubled`).
-/

namespace ColonScript

open Text

namespace Grammar

open Lexeme

/-! ### Replacing the rest of a source -/

/-- A text that can stand in place of the rest after a form: it starts with the same character or
is empty, and an argument that applies in front of it also applies in front of the rest. -/
structure Replaces (rest' rest : List Char) : Prop where
  head : ∀ c ∈ rest'.head?, c ∈ rest.head?
  applies : ∀ cs kind, Applies kind (cs ++ rest') → Applies kind (cs ++ rest)

namespace Replaces

variable {rest rest' text : List Char} (hr : Replaces rest' rest)

include hr

/-- A run ends where it did. -/
lemma maximalRun {p : Char → Bool} {run : List Char} (h : MaximalRun p run rest) :
    MaximalRun p run rest' :=
  ⟨h.all, fun c hc => h.stops c (hr.head c hc)⟩

lemma slotForm {id : SlotId} (h : SlotForm id text rest) : SlotForm id text rest' := by
  cases h with
  | index hne hrun hfits => exact .index hne (hr.maximalRun hrun) hfits
  | argCount => exact .argCount

lemma referenceForm {r : Reference} (h : ReferenceForm r text rest) :
    ReferenceForm r text rest' := by
  cases h with
  | inner hslot => exact .inner (hr.slotForm hslot)
  | outer hslot => exact .outer (hr.slotForm hslot)

lemma argForm {kind : ArgKind} {payload : List Char} (h : ArgForm kind payload text rest) :
    ArgForm kind payload text rest' :=
  h.of_runs fun _ hrun => hr.maximalRun hrun

/-- No kind of arguments comes first that did not before. -/
lemma argumentForm {a : Argument} (h : ArgumentForm a text rest) : ArgumentForm a text rest' :=
  ⟨hr.argForm h.form, fun kind hlt happ => h.first kind hlt (hr.applies text kind happ)⟩

lemma commandForm {cmd : Command} (h : CommandForm cmd text rest) :
    CommandForm cmd text rest' := by
  cases h with
  | bare hc hrun hat => exact .bare hc (hr.maximalRun hrun) fun hhead => hat (hr.head '@' hhead)
  | argument hc hmore harg => exact .argument hc hmore (hr.argumentForm harg)
  | dangling hc hmore hnone =>
    exact .dangling hc hmore fun kind happ => hnone kind (hr.applies [] kind happ)

lemma kindForm {kind : TokenKind} (h : KindForm kind text rest) : KindForm kind text rest' := by
  cases h with
  | reference href => exact .reference (hr.referenceForm href)
  | command hcmd => exact .command (hr.commandForm hcmd)

/-- A form is read as the same form in front of a rest that replaces its own. -/
lemma form {kind : Option TokenKind} (h : Form kind text rest) : Form kind text rest' := by
  cases h with
  | token hkind => exact .token (hr.kindForm hkind)
  | silent hkind => exact .silent (hr.kindForm hkind)

end Replaces

/-- The end of the text replaces every rest. -/
lemma replaces_nil (rest : List Char) : Replaces [] rest := by
  refine ⟨by simp, fun cs kind happ => ?_⟩
  rw [List.append_nil] at happ
  exact happ.append rest

end Grammar

/-! ### Slices -/

namespace Lexeme

open Grammar

/-- A form that is the whole text is its only lexeme. -/
lemma scan_form {kind : Option TokenKind} {text : List Char} (h : Form kind text []) :
    scan (String.ofList text) = .ok [⟨0, byteSize text, kind.map (⟨·, 1⟩)⟩] := by
  have hpieces := Piece.segment_form h
  rw [List.append_nil, Piece.segment] at hpieces
  refine scan_eq_ok_iff.2 ⟨?_, ?_⟩
  · obtain ⟨more, rfl⟩ := h.head
    simp
  · rw [String.toList_ofList, hpieces]
    simp [locate]

/-- Lexemes are self-contained: the part of the source that a lexeme covers, scanned alone, is one
lexeme from its start to its end, with the same token on line one, or with none if it had
none. -/
theorem scan_slice {source : String} {lexemes : List Lexeme} (hscan : scan source = .ok lexemes)
    {l : Lexeme} (hl : l ∈ lexemes) :
    ∃ before text after, Covers l source before text after ∧
      scan (String.ofList text) =
        .ok [⟨0, byteSize text, l.token.map fun t => ⟨t.kind, 1⟩⟩] := by
  obtain ⟨before, text, after, kind, hcovers, hform, htoken⟩ := exists_covers hscan hl
  have halone : Form kind text [] := (replaces_nil after).form hform
  refine ⟨before, text, after, hcovers, ?_⟩
  rw [scan_form halone, htoken, Option.map_map]
  rfl

/-- The quotation of the first lexeme is spoilt far after its end, and it is open at the end of the
slice. -/
theorem scan_slice_spoilt_quote :
    ∃ lexemes, scan "ä:A@\"x y \\ ::b@\"" = .ok lexemes ∧
      ⟨2, 7, some ⟨.command ⟨.other "a", some ⟨.unknown, "\"x"⟩⟩, 1⟩⟩ ∈ lexemes ∧
      ∃ before text after,
        Covers ⟨2, 7, some ⟨.command ⟨.other "a", some ⟨.unknown, "\"x"⟩⟩, 1⟩⟩
          "ä:A@\"x y \\ ::b@\"" before text after ∧
        scan (String.ofList text) =
          .ok [⟨0, byteSize text, some ⟨.command ⟨.other "a", some ⟨.unknown, "\"x"⟩⟩, 1⟩⟩] := by
  have hscan : scan "ä:A@\"x y \\ ::b@\"" =
      .ok [⟨2, 7, some ⟨.command ⟨.other "a", some ⟨.unknown, "\"x"⟩⟩, 1⟩⟩, ⟨12, 17, none⟩] := by
    decide +kernel
  exact ⟨_, hscan, List.mem_cons_self, scan_slice hscan List.mem_cons_self⟩

end Lexeme

/-! ### A second colon -/

namespace Grammar

open Lexeme

/-- Before a boundary, which arguments apply depends only on whether a quote is closed after it. -/
lemma Boundary.applies_congr {rest rest' : List Char} (hb : Boundary rest) (hb' : Boundary rest')
    (hclosing : Quoted.closing? rest = none ↔ Quoted.closing? rest' = none) {kind : ArgKind}
    {cs : List Char} (h : Applies kind (cs ++ rest)) : Applies kind (cs ++ rest') := by
  by_cases hkind : kind = .text
  · subst hkind
    obtain ⟨more, hmore, hfound⟩ := applies_text_iff.1 h
    cases cs with
    | nil =>
      -- no quote stands at a boundary
      have hquote := hb '"' (by simp_all)
      simp at hquote
    | cons c tail =>
      obtain ⟨rfl, rfl⟩ := List.cons.inj hmore
      have hsame := Source.closing?_append_congr tail hb hb' hclosing
      exact applies_text_iff.2 ⟨tail ++ rest', rfl, fun hnone => hfound (hsame.2 hnone)⟩
  · exact (hb.applies hkind h).append rest'

/-- Two boundaries with the same first character replace each other, whatever stands before
them, if they agree on whether a quote is closed. -/
lemma Boundary.replaces {rest rest' : List Char} (hb : Boundary rest) (hb' : Boundary rest')
    (hhead : rest'.head? = rest.head?)
    (hclosing : Quoted.closing? rest' = none ↔ Quoted.closing? rest = none) (mid : List Char) :
    Replaces (mid ++ rest') (mid ++ rest) := by
  refine ⟨fun c hc => ?_, fun cs kind happ => ?_⟩
  · rwa [List.head?_append, ← hhead, ← List.head?_append]
  · rw [← List.append_assoc] at happ ⊢
    exact hb'.applies_congr hb hclosing happ

/-- A search for a closing quote passes over a colon. -/
lemma closing?_colon_eq_none_iff (cs : List Char) :
    Quoted.closing? (':' :: cs) = none ↔ Quoted.closing? cs = none := by
  rw [closing?_plain (by decide) (by decide), Option.map_eq_none_iff]

lemma boundary_colon (cs : List Char) : Boundary (':' :: cs) :=
  boundary_cons (.inl rfl)

/-- Two colons replace one. -/
lemma replaces_doubled (mid cs : List Char) :
    Replaces (mid ++ ':' :: ':' :: cs) (mid ++ ':' :: cs) :=
  (boundary_colon cs).replaces (boundary_colon (':' :: cs)) rfl
    (closing?_colon_eq_none_iff (':' :: cs)) mid

/-- One colon replaces two. -/
lemma replaces_single (mid cs : List Char) :
    Replaces (mid ++ ':' :: cs) (mid ++ ':' :: ':' :: cs) :=
  (boundary_colon (':' :: cs)).replaces (boundary_colon cs) rfl
    (closing?_colon_eq_none_iff (':' :: cs)).symm mid

/-- A reference ends before the next colon. -/
lemma ReferenceForm.ends_before_colon {r : Reference} {text rest cs more : List Char}
    (h : ReferenceForm r text rest) (hsplit : text ++ rest = cs ++ ':' :: more) :
    ∃ gap, cs = text ++ gap ∧ rest = gap ++ ':' :: more := by
  rcases List.append_eq_append_iff.1 hsplit with ⟨gap, hcs, hrest⟩ | ⟨gap, htext, hcolon⟩
  · exact ⟨gap, hcs, hrest⟩
  · cases gap with
    | nil => exact ⟨[], by simp [htext], by simpa using hcolon.symm⟩
    | cons d tail =>
      obtain ⟨rfl, -⟩ := List.cons.inj hcolon
      have hmark := h.isDigit_or_mem ':' (by simp [htext])
      simp at hmark

/-- A command stands wherever a letter does. -/
lemma exists_commandForm {c : Char} (hc : c.isAlpha = true) (more : List Char) :
    ∃ cmd text rest, text ++ rest = c :: more ∧ CommandForm cmd text rest := by
  have hread : command? (c :: more) ≠ none := by
    rw [command?, if_pos hc]
    split
    · split <;> simp
    · simp
  obtain ⟨m, hm⟩ := Option.ne_none_iff_exists'.1 hread
  exact ⟨m.value, m.text, m.rest, command?_splits hm, recognizes_command?.sound hm⟩

/-- Where a reference or a command stands in front of two colons, one stands in front of one.  A
reference is the same; a command may have another argument, but its letter is enough. -/
lemma exists_kindForm_single {kind : TokenKind} {text rest cs more : List Char}
    (h : KindForm kind text rest) (hsplit : text ++ rest = cs ++ ':' :: ':' :: more) :
    ∃ kind' text' rest', text' ++ rest' = cs ++ ':' :: more ∧ KindForm kind' text' rest' := by
  cases h with
  | reference href =>
    obtain ⟨gap, rfl, rfl⟩ := href.ends_before_colon hsplit
    have hsame := (replaces_single gap more).referenceForm href
    exact ⟨_, text, gap ++ ':' :: more, (List.append_assoc ..).symm, .reference hsame⟩
  | command hcmd =>
    obtain ⟨c, tail, rfl, hc⟩ := hcmd.head
    cases cs with
    | nil =>
      obtain ⟨rfl, -⟩ := List.cons.inj hsplit
      simp at hc
    | cons d cs =>
      obtain ⟨rfl, -⟩ := List.cons.inj hsplit
      obtain ⟨cmd', text', rest', hsplit', hform⟩ := exists_commandForm hc (cs ++ ':' :: more)
      exact ⟨_, text', rest', hsplit', .command hform⟩

/-- Where no form stands, none stands after a later colon has been doubled. -/
lemma form?_doubled_eq_none {c : Char} {cs more : List Char}
    (h : form? (c :: (cs ++ ':' :: more)) = none) :
    form? (c :: (cs ++ ':' :: ':' :: more)) = none := by
  rw [recognizes_form?.eq_none_iff] at h ⊢
  intro kind text rest hsplit hform
  cases hform with
  | @token kind text _ hkind =>
    obtain ⟨rfl, htail⟩ := List.cons.inj hsplit
    obtain ⟨kind', text', rest', hsplit', hkind'⟩ := exists_kindForm_single hkind htail
    exact h _ (':' :: text') rest' (congrArg _ hsplit') (.token hkind')
  | @silent kind text _ hkind =>
    obtain ⟨rfl, htail⟩ := List.cons.inj hsplit
    cases cs with
    | nil =>
      -- three colons in a row start nothing
      obtain ⟨-, hthird⟩ := List.cons.inj htail
      obtain ⟨d, tail, rfl, hd⟩ := hkind.head_ne
      exact hd (List.cons.inj hthird).1
    | cons d cs =>
      obtain ⟨rfl, hinner⟩ := List.cons.inj htail
      obtain ⟨kind', text', rest', hsplit', hkind'⟩ := exists_kindForm_single hkind hinner
      exact h _ (':' :: ':' :: text') rest' (congrArg _ (congrArg _ hsplit')) (.silent hkind')

end Grammar

/-! ### The pieces of a source with a second colon -/

namespace Piece

open Grammar

/-- The first piece of a text is a character at which no form stands, or a form. -/
lemma segment_eq_cons {cs : List Char} {p : Piece} {others : List Piece}
    (h : segment cs = p :: others) :
    (∃ c more, cs = c :: more ∧ p = .skipped c ∧ Lexeme.form? (c :: more) = none ∧
      segment more = others) ∨
    ∃ kind text rest, cs = text ++ rest ∧ p = .form text kind ∧ Form kind text rest ∧
      segment rest = others := by
  cases cs with
  | nil => simp [segment] at h
  | cons c more =>
    rw [segment] at h
    split at h
    · next m hm =>
      obtain ⟨rfl, hothers⟩ := List.cons.inj h
      have hsplits : m.text ++ m.rest = c :: more := Lexeme.form?_splits hm
      exact .inr ⟨_, _, _, hsplits.symm, rfl, recognizes_form?.sound hm, hothers⟩
    · next hnone =>
      obtain ⟨rfl, hothers⟩ := List.cons.inj h
      exact .inl ⟨c, more, rfl, rfl, hnone, hothers⟩

/-- The pieces after some point are the pieces of the text after that point. -/
lemma segment_eq_append {cs : List Char} {ps qs : List Piece} (h : segment cs = ps ++ qs) :
    ∃ rest, cs = ps.flatMap chars ++ rest ∧ segment rest = qs := by
  induction ps generalizing cs with
  | nil => exact ⟨cs, rfl, h⟩
  | cons p ps ih =>
    rcases segment_eq_cons h with
      ⟨c, more, rfl, rfl, -, hmore⟩ | ⟨kind, text, tail, rfl, rfl, -, htail⟩
    · obtain ⟨rest, rfl, hrest⟩ := ih hmore
      exact ⟨rest, rfl, hrest⟩
    · obtain ⟨rest, rfl, hrest⟩ := ih htail
      exact ⟨rest, by simp [chars], hrest⟩

/-- The pieces before a colon stay as they are when this colon is doubled. -/
lemma segment_doubled {ps qs : List Piece} {more : List Char}
    (h : segment (ps.flatMap chars ++ ':' :: more) = ps ++ qs) :
    segment (ps.flatMap chars ++ ':' :: ':' :: more) = ps ++ segment (':' :: ':' :: more) := by
  induction ps with
  | nil => rfl
  | cons p ps ih =>
    -- the first piece is skipped as before, or it is the same form as before
    rw [List.flatMap_cons, List.append_assoc] at h ⊢
    rcases segment_eq_cons h with
      ⟨c, tail, hcs, rfl, hnone, htail⟩ | ⟨kind, text, tail, hcs, rfl, hform, htail⟩
    · obtain ⟨-, rfl⟩ := List.cons.inj hcs
      rw [chars, List.singleton_append, segment_skip (form?_doubled_eq_none hnone), ih htail]
      rfl
    · obtain rfl : ps.flatMap chars ++ ':' :: more = tail := List.append_cancel_left hcs
      rw [chars, segment_form ((replaces_doubled _ more).form hform), ih htail]
      rfl

/-- A colon before a form with a token makes it a form without one, and changes no other piece. -/
lemma segment_silenced {cs text : List Char} {kind : TokenKind} {ps qs : List Piece}
    (h : segment cs = ps ++ .form text (some kind) :: qs) :
    ∃ inner after, text = ':' :: inner ∧ cs = ps.flatMap chars ++ (text ++ after) ∧
      segment (ps.flatMap chars ++ ':' :: (text ++ after)) =
        ps ++ .form (':' :: text) none :: qs := by
  obtain ⟨tail, rfl, htail⟩ := segment_eq_append h
  rcases segment_eq_cons htail with ⟨_, _, -, hpiece, -⟩ | ⟨_, _, after, rfl, hpiece, hform, hafter⟩
  · simp at hpiece
  · obtain ⟨rfl, rfl⟩ := Piece.form.inj hpiece
    cases hform with
    | @token _ inner _ hkind =>
      have hsilent : segment (':' :: ':' :: (inner ++ after)) = _ := segment_form (.silent hkind)
      have hdoubled := segment_doubled h
      refine ⟨inner, after, rfl, rfl, hdoubled.trans ?_⟩
      rw [← hafter, ← hsilent]
      rfl

end Piece

/-! ### The lexemes of a source with a second colon -/

namespace Text.Position

/-- The same place with more bytes before it. -/
def shift (n : ℕ) (p : Position) : Position :=
  { p with offset := p.offset + n }

/-- What is walked over moves a shifted place in the same way. -/
lemma shift_advance (n : ℕ) (p : Position) (text : List Char) :
    (p.shift n).advance text = (p.advance text).shift n := by
  induction text generalizing p with
  | nil => rfl
  | cons c more ih =>
    have hstep : (p.shift n).step c = (p.step c).shift n := by
      have hoffset : p.offset + n + c.utf8Size = p.offset + c.utf8Size + n := by omega
      exact congrArg (Position.mk (p.step c).line · (c == '\r')) hoffset
    rw [advance_cons, advance_cons, hstep, ih]

/-- A second colon shifts what comes after it. -/
lemma advance_doubled (p : Position) (more : List Char) :
    p.advance (':' :: ':' :: more) = (p.advance (':' :: more)).shift 1 := by
  have hstep : (p.step ':').step ':' = (p.step ':').shift 1 := rfl
  rw [advance_cons, advance_cons, advance_cons, hstep, shift_advance]

end Text.Position

namespace Lexeme

open Grammar

/-- The same lexeme with more bytes before it. -/
def shift (n : ℕ) (l : Lexeme) : Lexeme :=
  ⟨l.start + n, l.stop + n, l.token⟩

lemma token_comp_shift (n : ℕ) : token ∘ shift n = token := rfl

/-- Pieces after a shifted place give shifted lexemes. -/
lemma locate_shift (n : ℕ) (p : Position) (pieces : List Piece) :
    locate (p.shift n) pieces = (locate p pieces).map (shift n) := by
  induction pieces generalizing p with
  | nil => rfl
  | cons piece others ih =>
    cases piece with
    | skipped c =>
      have hstep := Position.shift_advance n p [c]
      rw [locate, locate, ← ih]
      exact congrArg (locate · others) hstep
    | form text kind =>
      rw [locate, locate, Position.shift_advance, List.map_cons, ← ih]
      rfl

/-- Pieces are located one after the other. -/
lemma locate_append (p : Position) (ps qs : List Piece) :
    locate p (ps ++ qs) = locate p ps ++ locate (p.advance (ps.flatMap Piece.chars)) qs := by
  induction ps generalizing p with
  | nil => rfl
  | cons piece ps ih =>
    cases piece with
    | skipped c => exact ih (p.step c)
    | form text kind =>
      rw [List.cons_append, locate, locate, ih, List.flatMap_cons, Position.advance_append]
      rfl

/-- Each lexeme is located at one of the pieces, and the lexemes before and after it at the
pieces before and after that one. -/
lemma locate_eq_append_cons {p : Position} {pieces : List Piece} {front back : List Lexeme}
    {l : Lexeme} (h : locate p pieces = front ++ l :: back) :
    ∃ ps text kind qs, pieces = ps ++ .form text kind :: qs ∧ front = locate p ps ∧
      l :: back = locate (p.advance (ps.flatMap Piece.chars)) (.form text kind :: qs) := by
  induction pieces generalizing p front with
  | nil => simp [locate] at h
  | cons piece others ih =>
    cases piece with
    | skipped c =>
      obtain ⟨ps, text, kind, qs, rfl, hfront, hback⟩ := ih h
      exact ⟨.skipped c :: ps, text, kind, qs, rfl, hfront, hback⟩
    | form text kind =>
      cases front with
      | nil => exact ⟨[], text, kind, others, rfl, rfl, h.symm⟩
      | cons first front =>
        obtain ⟨hfirst, htail⟩ := List.cons.inj h
        obtain ⟨ps, text', kind', qs, rfl, hfront, hback⟩ := ih htail
        refine ⟨.form text kind :: ps, text', kind', qs, rfl, ?_, ?_⟩
        · rw [locate, ← hfirst, hfront]
        · rw [List.flatMap_cons, Position.advance_append]
          exact hback

/-- A colon before a lexeme with a token takes this token away.  The lexeme is longer by the colon,
those before it stay where they are, and those after it come one byte later. -/
lemma scan_doubled {source : String} {front back : List Lexeme} {l : Lexeme} {t : Token}
    (hscan : scan source = .ok (front ++ l :: back)) (htoken : l.token = some t) :
    ∃ before text after, Covers l source before text after ∧
      scan (String.ofList (before ++ ':' :: (text ++ after))) =
        .ok (front ++ ⟨l.start, l.stop + 1, none⟩ :: back.map (shift 1)) := by
  obtain ⟨-, hlocate⟩ := scan_eq_ok_iff.1 hscan
  obtain ⟨ps, text, kind, qs, hpieces, rfl, hback⟩ := locate_eq_append_cons hlocate
  obtain ⟨rfl, rfl⟩ := List.cons.inj hback
  obtain ⟨k, rfl, rfl⟩ := Option.map_eq_some_iff.1 htoken
  obtain ⟨inner, after, rfl, hsource, hdoubled⟩ := Piece.segment_silenced hpieces
  have hstart : (Position.advance {} (ps.flatMap Piece.chars)).offset =
      byteSize (ps.flatMap Piece.chars) := by simp
  have hstop := Position.offset_advance (Position.advance {} (ps.flatMap Piece.chars)) (':' :: inner)
  rw [hstart] at hstop
  refine ⟨ps.flatMap Piece.chars, ':' :: inner, after, ⟨hsource, hstart, hstop⟩, ?_⟩
  refine scan_eq_ok_iff.2 ⟨by simp, ?_⟩
  rw [String.toList_ofList, hdoubled, locate_append, locate, Position.advance_doubled, locate_shift]
  rfl

end Lexeme

/-- A second colon silences exactly one token: in the source with one more colon where a lexeme
with a token starts, this token is missing and all others are the same, on the same lines. -/
theorem Token.tokenize_doubled {source : String} {front back : List Lexeme} {l : Lexeme} {t : Token}
    (hscan : Lexeme.scan source = .ok (front ++ l :: back)) (htoken : l.token = some t) :
    ∃ before text after, Grammar.Covers l source before text after ∧
      tokenize source = .ok (front.filterMap Lexeme.token ++ t :: back.filterMap Lexeme.token) ∧
      tokenize (String.ofList (before ++ ':' :: (text ++ after))) =
        .ok (front.filterMap Lexeme.token ++ back.filterMap Lexeme.token) := by
  obtain ⟨before, text, after, hcovers, hdoubled⟩ := Lexeme.scan_doubled hscan htoken
  refine ⟨before, text, after, hcovers, ?_, ?_⟩
  · rw [tokenize, hscan, Except.map, List.filterMap_append, List.filterMap_cons_some htoken]
  · rw [tokenize, hdoubled, Except.map, List.filterMap_append, List.filterMap_cons_none rfl,
      List.filterMap_map, Lexeme.token_comp_shift]

/-- The colon is put after a backslash, inside of a quotation that is not closed. -/
theorem Token.tokenize_doubled_open_quote :
    ∃ front l back t, Lexeme.scan ":a@\"x \\:b@1\r\n::c:~0" = .ok (front ++ l :: back) ∧
      l.token = some t ∧ t = ⟨.command ⟨.other "b", some ⟨.static, "1"⟩⟩, 1⟩ ∧
      ∃ before text after, Grammar.Covers l ":a@\"x \\:b@1\r\n::c:~0" before text after ∧
        tokenize ":a@\"x \\:b@1\r\n::c:~0" =
          .ok (front.filterMap Lexeme.token ++ t :: back.filterMap Lexeme.token) ∧
        tokenize (String.ofList (before ++ ':' :: (text ++ after))) =
          .ok (front.filterMap Lexeme.token ++ back.filterMap Lexeme.token) := by
  have hscan : Lexeme.scan ":a@\"x \\:b@1\r\n::c:~0" =
      .ok ([⟨0, 5, some ⟨.command ⟨.other "a", some ⟨.unknown, "\"x"⟩⟩, 1⟩⟩] ++
        ⟨7, 11, some ⟨.command ⟨.other "b", some ⟨.static, "1"⟩⟩, 1⟩⟩ ::
          [⟨13, 16, none⟩, ⟨16, 19, some ⟨.reference ⟨.var, .index 0, false⟩, 2⟩⟩]) := by
    decide +kernel
  exact ⟨_, _, _, _, hscan, rfl, rfl, tokenize_doubled hscan rfl⟩

end ColonScript
