import Mathlib
import ColonScript.Proofs.Grammar

/-!
# Spellings of tokens, read again

A token is scanned in the middle of some source and later written back between other tokens, so
it is read again in another context.  This file compares the two readings.

* What a token is spelled with, alone, reads as the same token (`KindForm.alone`).  For
  arguments this rests on `Applies.append`: a kind that applies to a text still applies when
  more is written after it.
* Written before the end of the text, a colon or a line feed (`Boundary`), the spelling reads
  as the same token again (`KindForm.reread`), with one exception: an unknown argument that
  starts with a quote becomes a text where a later quote closes it (`KindForm.reread_closed`).
-/

namespace ColonScript

/-- What follows the quote with which an unknown argument starts. -/
def Argument.quoteTail? (a : Argument) : Option (List Char) :=
  match a.kind, a.payload.toList with
  | .unknown, '"' :: tail => some tail
  | _, _ => none

/-- What follows the quote with which the argument of a token starts, if it is an unknown
argument. -/
def TokenKind.quoteTail? : TokenKind → Option (List Char)
  | reference _ => none
  | command c => c.argument.bind Argument.quoteTail?

namespace Grammar

open Lexeme

/-! ### Kinds of arguments by what a text starts with -/

section Applies

variable {cs : List Char}

/-- A run that is not empty starts with a character of its class. -/
lemma exists_maximalRun_iff {p : Char → Bool} :
    (∃ run rest, run ++ rest = cs ∧ run ≠ [] ∧ MaximalRun p run rest) ↔
      ∃ c more, cs = c :: more ∧ p c = true := by
  constructor
  · rintro ⟨run, rest, rfl, hne, hrun⟩
    obtain ⟨c, more, rfl⟩ := List.exists_cons_of_ne_nil hne
    exact ⟨c, more ++ rest, rfl, hrun.all c (by simp)⟩
  · rintro ⟨c, more, rfl, hc⟩
    refine ⟨_, _, List.takeWhile_append_dropWhile, ?_, maximalRun_takeWhile p _⟩
    simp [hc]

/-- A kind that is spelled by a run applies where a character of its class stands. -/
lemma SpelledByRun.applies_iff {kind : ArgKind} {p : Char → Bool} (h : SpelledByRun kind p) :
    Applies kind cs ↔ ∃ c more, cs = c :: more ∧ p c = true := by
  rw [← exists_maximalRun_iff]
  constructor
  · rintro ⟨payload, text, rest, hsplit, hform⟩
    obtain ⟨-, hne, hrun⟩ := (h payload text rest).1 hform
    exact ⟨text, rest, hsplit, hne, hrun⟩
  · rintro ⟨run, rest, hsplit, hne, hrun⟩
    exact ⟨run, run, rest, hsplit, (h run run rest).2 ⟨rfl, hne, hrun⟩⟩

/-- A text applies where a quote is closed. -/
lemma applies_text_iff :
    Applies .text cs ↔ ∃ more, cs = '"' :: more ∧ Text.Quoted.closing? more ≠ none := by
  constructor
  · rintro ⟨payload, _, rest, rfl, hform⟩
    cases hform with
    | text hpayload =>
      refine ⟨payload ++ '"' :: rest, by simp, ?_⟩
      rw [closing?_payload hpayload]
      simp
  · rintro ⟨more, rfl, hclosing⟩
    obtain ⟨⟨payload, rest⟩, hread⟩ := Option.ne_none_iff_exists'.1 hclosing
    obtain ⟨hsplit, hpayload⟩ := closing?_eq_some_iff.1 hread
    exact ⟨payload, _, rest, by simp [← hsplit], .text hpayload⟩

/-- An index applies where a tilde and a digit stand. -/
lemma applies_index_iff :
    Applies .index cs ↔ ∃ c more, cs = '~' :: c :: more ∧ c.isDigit = true := by
  constructor
  · rintro ⟨_, _, rest, rfl, hform⟩
    cases hform with
    | index hne hrun =>
      obtain ⟨c, more, hmore, hc⟩ := exists_maximalRun_iff.1 ⟨_, rest, rfl, hne, hrun⟩
      exact ⟨c, more, by rw [List.cons_append, hmore], hc⟩
  · rintro ⟨c, more, rfl, hc⟩
    obtain ⟨run, rest, hsplit, hne, hrun⟩ := exists_maximalRun_iff.2 ⟨c, more, rfl, hc⟩
    exact ⟨run, _, rest, by rw [List.cons_append, hsplit], .index hne hrun⟩

/-- A number with a point applies where digits and a point stand, or a point and a digit. -/
lemma applies_dynamic_iff :
    Applies .dynamic cs ↔ ∃ whole more, cs = whole ++ '.' :: more ∧
      (∀ c ∈ whole, c.isDigit = true) ∧ (whole ≠ [] ∨ ∃ c ∈ more.head?, c.isDigit = true) := by
  constructor
  · rintro ⟨_, _, rest, rfl, hform⟩
    cases hform with
    | @dynamic whole fraction _ hne hwhole hrun =>
      refine ⟨whole, fraction ++ rest, by simp, hwhole, hne.imp_right fun hfraction => ?_⟩
      obtain ⟨c, more, rfl⟩ := List.exists_cons_of_ne_nil hfraction
      exact ⟨c, rfl, hrun.all c (by simp)⟩
  · rintro ⟨whole, more, rfl, hwhole, hne⟩
    have hrun := maximalRun_takeWhile Char.isDigit more
    refine ⟨_, _, more.dropWhile Char.isDigit, ?_, .dynamic ?_ hwhole hrun⟩
    · simp [List.takeWhile_append_dropWhile]
    · refine hne.imp_right ?_
      rintro ⟨c, hhead, hc⟩
      obtain ⟨tail, rfl⟩ := List.head?_eq_some_iff.1 hhead
      simp [hc]

end Applies

/-- A closing quote is found no matter what stands after it. -/
lemma closing?_append_ne_none {cs : List Char} (h : Text.Quoted.closing? cs ≠ none)
    (after : List Char) : Text.Quoted.closing? (cs ++ after) ≠ none := by
  obtain ⟨⟨payload, rest⟩, hread⟩ := Option.ne_none_iff_exists'.1 h
  obtain ⟨rfl, hpayload⟩ := closing?_eq_some_iff.1 hread
  rw [List.append_assoc, List.cons_append, closing?_payload hpayload]
  simp

/-- A kind that applies to a text still applies when more is written after it. -/
lemma Applies.append {kind : ArgKind} {cs : List Char} (h : Applies kind cs) (after : List Char) :
    Applies kind (cs ++ after) := by
  have hrun {p : Char → Bool} (hp : SpelledByRun kind p) : Applies kind (cs ++ after) := by
    obtain ⟨c, more, rfl, hc⟩ := hp.applies_iff.1 h
    exact hp.applies_iff.2 ⟨c, more ++ after, rfl, hc⟩
  cases kind with
  | text =>
    obtain ⟨more, rfl, hclosing⟩ := applies_text_iff.1 h
    exact applies_text_iff.2 ⟨more ++ after, rfl, closing?_append_ne_none hclosing after⟩
  | word => exact hrun spelledByRun_word
  | index =>
    obtain ⟨c, more, rfl, hc⟩ := applies_index_iff.1 h
    exact applies_index_iff.2 ⟨c, more ++ after, rfl, hc⟩
  | dynamic =>
    obtain ⟨whole, more, rfl, hwhole, hne⟩ := applies_dynamic_iff.1 h
    refine applies_dynamic_iff.2 ⟨whole, more ++ after, by simp, hwhole, hne.imp_right ?_⟩
    rintro ⟨c, hhead, hc⟩
    obtain ⟨tail, rfl⟩ := List.head?_eq_some_iff.1 hhead
    exact ⟨c, rfl, hc⟩
  | static => exact hrun spelledByRun_static
  | unknown => exact hrun spelledByRun_unknown

/-! ### Boundaries -/

/-- A text before which every token ends: it is empty, or a colon or a line feed comes next. -/
def Boundary (rest : List Char) : Prop :=
  ∀ c ∈ rest.head?, c = ':' ∨ c = '\n'

/-- A class of characters that no run continues across a boundary. -/
def EndsAtBoundary (p : Char → Bool) : Prop :=
  p ':' = false ∧ p '\n' = false

lemma endsAtBoundary_isDigit : EndsAtBoundary Char.isDigit := by constructor <;> decide

lemma endsAtBoundary_isWordChar : EndsAtBoundary isWordChar := by constructor <;> decide

lemma endsAtBoundary_isArgChar : EndsAtBoundary isArgChar := by constructor <;> decide

lemma boundary_nil : Boundary [] := by simp [Boundary]

lemma boundary_cons {c : Char} {rest : List Char} (hc : c = ':' ∨ c = '\n') :
    Boundary (c :: rest) := by
  simpa [Boundary] using hc

/-- An argument is spelled the same before another rest if runs end there as well. -/
lemma ArgForm.of_runs {kind : ArgKind} {payload text rest rest' : List Char}
    (h : ArgForm kind payload text rest)
    (hruns : ∀ {p : Char → Bool} {run : List Char}, EndsAtBoundary p → MaximalRun p run rest →
      MaximalRun p run rest') : ArgForm kind payload text rest' := by
  cases h with
  | text hpayload => exact .text hpayload
  | word hne hrun => exact .word hne (hruns endsAtBoundary_isWordChar hrun)
  | index hne hrun => exact .index hne (hruns endsAtBoundary_isDigit hrun)
  | dynamic hne hwhole hrun => exact .dynamic hne hwhole (hruns endsAtBoundary_isDigit hrun)
  | static hne hrun => exact .static hne (hruns endsAtBoundary_isDigit hrun)
  | unknown hne hrun => exact .unknown hne (hruns endsAtBoundary_isArgChar hrun)

namespace Boundary

variable {rest : List Char} (hb : Boundary rest)

include hb

/-- No character of a class that ends at boundaries comes next. -/
lemma stops {p : Char → Bool} (hp : EndsAtBoundary p) : ∀ c ∈ rest.head?, p c = false := by
  intro c hc
  rcases hb c hc with rfl | rfl
  · exact hp.1
  · exact hp.2

/-- A run that is maximal somewhere is maximal before a boundary. -/
lemma maximalRun {p : Char → Bool} (hp : EndsAtBoundary p) {run after : List Char}
    (hrun : MaximalRun p run after) : MaximalRun p run rest :=
  ⟨hrun.all, hb.stops hp⟩

/-- An argument that is spelled somewhere is spelled the same before a boundary. -/
lemma argForm {kind : ArgKind} {payload text after : List Char}
    (h : ArgForm kind payload text after) : ArgForm kind payload text rest :=
  h.of_runs fun hp hrun => hb.maximalRun hp hrun

/-- A kind that is spelled by a run applies before a boundary only by what stands there. -/
lemma applies_of_run {kind : ArgKind} {p : Char → Bool} (hkind : SpelledByRun kind p)
    (hp : EndsAtBoundary p) {cs : List Char} (h : Applies kind (cs ++ rest)) :
    Applies kind cs := by
  obtain ⟨c, more, hcs, hc⟩ := hkind.applies_iff.1 h
  cases cs with
  | nil =>
    have hstop := hb.stops hp c (by simp_all)
    rw [hc] at hstop
    simp at hstop
  | cons d tail =>
    obtain ⟨rfl, -⟩ := List.cons.inj hcs
    exact hkind.applies_iff.2 ⟨d, tail, rfl, hc⟩

/-- An index applies before a boundary only by what stands there. -/
lemma applies_index {cs : List Char} (h : Applies .index (cs ++ rest)) : Applies .index cs := by
  obtain ⟨c, more, hcs, hc⟩ := applies_index_iff.1 h
  match cs, hcs with
  | [], hcs =>
    have hmark := hb '~' (by simp_all)
    simp at hmark
  | [d], hcs =>
    have hstop := hb.stops endsAtBoundary_isDigit c (by simp_all)
    rw [hc] at hstop
    simp at hstop
  | d :: e :: tail, hcs =>
    obtain ⟨rfl, rfl, -⟩ : d = '~' ∧ e = c ∧ tail ++ rest = more := by simpa using hcs
    exact applies_index_iff.2 ⟨e, tail, rfl, hc⟩

/-- A number with a point applies before a boundary only by what stands there. -/
lemma applies_dynamic {cs : List Char} (h : Applies .dynamic (cs ++ rest)) :
    Applies .dynamic cs := by
  obtain ⟨whole, more, hcs, hwhole, hne⟩ := applies_dynamic_iff.1 h
  have hdigit := hb.stops endsAtBoundary_isDigit
  have hpoint : '.' ∉ rest.head? := fun hhead => by simpa using hb '.' hhead
  rcases List.append_eq_append_iff.1 hcs with ⟨gap, rfl, hrest⟩ | ⟨gap, rfl, hmore⟩
  · -- the digits would have to reach across the boundary
    cases gap with
    | nil => exact absurd (by simp [hrest]) hpoint
    | cons c tail =>
      have hc := hdigit c (by simp [hrest])
      rw [hwhole c (by simp)] at hc
      simp at hc
  · cases gap with
    | nil =>
      rw [List.nil_append] at hmore
      exact absurd (by simp [← hmore]) hpoint
    | cons c tail =>
      obtain ⟨rfl, rfl⟩ := List.cons.inj hmore
      refine applies_dynamic_iff.2 ⟨whole, tail, rfl, hwhole, hne.imp_right ?_⟩
      rintro ⟨d, hhead, hd⟩
      cases tail with
      | nil =>
        have hstop := hdigit d (by simpa using hhead)
        rw [hd] at hstop
        simp at hstop
      | cons e tail => exact ⟨d, by simpa using hhead, hd⟩

/-- Apart from texts, a kind applies before a boundary only by what stands there. -/
lemma applies {kind : ArgKind} (hkind : kind ≠ .text) {cs : List Char}
    (h : Applies kind (cs ++ rest)) : Applies kind cs := by
  cases kind with
  | text => exact absurd rfl hkind
  | word => exact hb.applies_of_run spelledByRun_word endsAtBoundary_isWordChar h
  | index => exact hb.applies_index h
  | dynamic => exact hb.applies_dynamic h
  | static => exact hb.applies_of_run spelledByRun_static endsAtBoundary_isDigit h
  | unknown => exact hb.applies_of_run spelledByRun_unknown endsAtBoundary_isArgChar h

end Boundary

/-! ### Arguments read again -/

/-- The text of an argument is its spelling. -/
lemma ArgForm.text_eq {kind : ArgKind} {payload text rest : List Char}
    (h : ArgForm kind payload text rest) :
    text = Argument.chars ⟨kind, String.ofList payload⟩ := by
  cases h <;> simp [Argument.chars]

/-- The text of an argument is its spelling. -/
lemma ArgumentForm.text_eq {a : Argument} {text rest : List Char} (h : ArgumentForm a text rest) :
    text = a.chars := by
  rw [h.form.text_eq, String.ofList_toList]

/-- The spelling of an argument, alone, reads as that argument. -/
lemma ArgumentForm.alone {a : Argument} {text rest : List Char} (h : ArgumentForm a text rest) :
    ArgumentForm a a.chars [] := by
  rw [← h.text_eq]
  refine ⟨boundary_nil.argForm h.form, fun kind hlt happ => h.first kind hlt ?_⟩
  rw [List.append_nil] at happ
  exact happ.append rest

/-- The unknown arguments that start with a quote. -/
lemma quoteTail?_eq_some_iff {a : Argument} {tail : List Char} :
    a.quoteTail? = some tail ↔ a = ⟨.unknown, String.ofList ('"' :: tail)⟩ := by
  obtain ⟨kind, payload⟩ := a
  unfold Argument.quoteTail?
  split
  · next tail' hkind hpayload =>
    simp only at hkind hpayload
    rw [Option.some.injEq, Argument.mk.injEq]
    constructor
    · rintro rfl
      exact ⟨hkind, by rw [← hpayload, String.ofList_toList]⟩
    · rintro ⟨-, rfl⟩
      simpa using hpayload.symm
  · next hnot =>
    simp only [reduceCtorEq, false_iff, Argument.mk.injEq, not_and]
    rintro rfl rfl
    exact hnot tail rfl (by simp)

/-- Only texts and unknown arguments can start with a quote. -/
lemma ArgForm.head?_ne_quote {kind : ArgKind} {payload text rest : List Char}
    (h : ArgForm kind payload text rest) (htext : kind ≠ .text) (hunknown : kind ≠ .unknown) :
    text.head? ≠ some '"' := by
  have hclass {p : Char → Bool} {run : List Char} (hp : p '"' = false)
      (hall : ∀ c ∈ run, p c = true) : run.head? ≠ some '"' := by
    intro hhead
    rw [hall '"' (List.mem_of_head? hhead)] at hp
    simp at hp
  cases h with
  | text => exact absurd rfl htext
  | word hne hrun => exact hclass (by decide) hrun.all
  | index => simp
  | @dynamic whole fraction _ hne hwhole hrun =>
    cases whole with
    | nil => simp
    | cons c more => simpa using hclass (by decide : Char.isDigit '"' = false) hwhole
  | static hne hrun => exact hclass (by decide) hrun.all
  | unknown => exact absurd rfl hunknown

/-- Only an unknown argument can start with a quote without being a text. -/
lemma ArgumentForm.quoteTail?_eq_some {a : Argument} {text rest tail : List Char}
    (h : ArgumentForm a text rest) (hkind : a.kind ≠ .text) (htext : text = '"' :: tail) :
    a.quoteTail? = some tail := by
  have hunknown : a.kind = .unknown := by
    by_contra hne
    exact h.form.head?_ne_quote hkind hne (by simp [htext])
  have hchars := h.text_eq
  simp only [Argument.chars, hunknown, htext] at hchars
  simp [Argument.quoteTail?, hunknown, ← hchars]

/-- No argument is spelled by nothing. -/
lemma ArgForm.text_ne_nil {kind : ArgKind} {payload text rest : List Char}
    (h : ArgForm kind payload text rest) : text ≠ [] := by
  cases h with
  | text => simp
  | word hne => exact hne
  | index => simp
  | dynamic => simp
  | static hne => exact hne
  | unknown hne => exact hne

/-- Before a boundary the spelling of an argument reads as that argument, if a quote with which
it starts stays open. -/
lemma ArgumentForm.reread {a : Argument} {rest : List Char} (h : ArgumentForm a a.chars [])
    (hb : Boundary rest)
    (hopen : ∀ tail ∈ a.quoteTail?, Text.Quoted.closing? (tail ++ rest) = none) :
    ArgumentForm a a.chars rest := by
  refine ⟨hb.argForm h.form, fun kind hlt happ => ?_⟩
  by_cases hkind : kind = .text
  · subst hkind
    have hne : a.kind ≠ .text := fun heq => by simp [heq] at hlt
    obtain ⟨c, tail, hchars⟩ := List.exists_cons_of_ne_nil h.form.text_ne_nil
    obtain ⟨more, hmore, hclosing⟩ := applies_text_iff.1 happ
    rw [hchars, List.cons_append] at hmore
    obtain ⟨rfl, rfl⟩ := List.cons.inj hmore
    exact hclosing (hopen tail (h.quoteTail?_eq_some hne hchars))
  · refine h.first kind hlt ?_
    rw [List.append_nil]
    exact hb.applies hkind happ

/-! ### References and names read again -/

/-- The spelling of every slot reads as that slot before a boundary. -/
lemma slotForm_chars (id : SlotId) {rest : List Char} (hb : Boundary rest) :
    SlotForm id id.chars rest := by
  cases id with
  | argCount => exact .argCount
  | index n =>
    have hrun : MaximalRun Char.isDigit (Decimal.digits n.toNat) rest :=
      ⟨fun c hc => Decimal.isDigit_of_mem_digits hc, hb.stops endsAtBoundary_isDigit⟩
    have hfits : Decimal.value (Decimal.digits n.toNat) < 2 ^ 64 := by
      rw [Decimal.value_digits]
      exact n.toNat_lt
    have hform := SlotForm.index (Decimal.digits_ne_nil n.toNat) hrun hfits
    rwa [Decimal.value_digits, UInt64.ofNat_toNat] at hform

/-- The spelling of every reference reads as that reference before a boundary. -/
lemma referenceForm_chars (r : Reference) {rest : List Char} (hb : Boundary rest) :
    ReferenceForm r r.chars rest := by
  obtain ⟨sigil, id, parent⟩ := r
  have hslot := slotForm_chars id hb
  cases parent with
  | false => exact .inner hslot
  | true => exact .outer hslot

/-- A name is spelled in lower case. -/
lemma nameOf_word (spelled : List Char) :
    (nameOf spelled).word.toList = spelled.map Char.toLower := by
  simp [nameOf]

/-- A name reads the same in lower case. -/
lemma nameOf_toLower (c : Char) (more : List Char) :
    nameOf (c.toLower :: more.map Char.toLower) = nameOf (c :: more) := by
  simp [nameOf, Function.comp_def]

/-- The characters of a name are still such in lower case. -/
lemma isWordChar_of_mem_toLower {more : List Char} (h : ∀ c ∈ more, isWordChar c = true) :
    ∀ c ∈ more.map Char.toLower, isWordChar c = true := by
  intro c hc
  obtain ⟨d, hd, rfl⟩ := List.mem_map.1 hc
  have hword := h d hd
  simp only [isWordChar, Bool.or_eq_true, beq_iff_eq] at hword ⊢
  rcases hword with halpha | rfl
  · exact .inl (by simpa using halpha)
  · exact .inr (by decide)

/-! ### Commands read again -/

/-- The spelling of a command, alone, reads as that command. -/
lemma CommandForm.alone {cmd : Command} {text rest : List Char} (h : CommandForm cmd text rest) :
    CommandForm cmd cmd.chars [] := by
  have hname {c : Char} {more : List Char} (hc : c.isAlpha = true)
      (hmore : ∀ d ∈ more, isWordChar d = true) :
      CommandForm ⟨nameOf (c :: more), none⟩ (Command.chars ⟨nameOf (c :: more), none⟩) [] := by
    have hrun : MaximalRun isWordChar (more.map Char.toLower) [] :=
      ⟨isWordChar_of_mem_toLower hmore, by simp⟩
    have hbare := CommandForm.bare (c := c.toLower) (by simpa using hc) hrun (by simp)
    rw [nameOf_toLower] at hbare
    simpa only [Command.chars, nameOf_word, List.map_cons] using hbare
  cases h with
  | bare hc hrun hat => exact hname hc hrun.all
  | @argument c more inner _ a hc hmore harg =>
    have hform := CommandForm.argument (c := c.toLower) (by simpa using hc)
      (isWordChar_of_mem_toLower hmore) harg.alone
    rw [nameOf_toLower] at hform
    simpa only [Command.chars, nameOf_word, List.map_cons] using hform
  | dangling hc hmore hnone => exact hname hc hmore

/-- Before a boundary the spelling of a command reads as that command, if a quote with which its
argument starts stays open. -/
lemma CommandForm.reread {cmd : Command} {rest : List Char} (h : CommandForm cmd cmd.chars [])
    (hb : Boundary rest)
    (hopen : ∀ a ∈ cmd.argument, ∀ tail ∈ a.quoteTail?,
      Text.Quoted.closing? (tail ++ rest) = none) :
    CommandForm cmd cmd.chars rest := by
  generalize htext : cmd.chars = text at h ⊢
  cases h with
  | bare hc hrun hat =>
    refine .bare hc (hb.maximalRun endsAtBoundary_isWordChar hrun) fun hhead => ?_
    simpa using hb '@' hhead
  | argument hc hmore harg =>
    obtain rfl := harg.text_eq
    exact .argument hc hmore (harg.reread hb (hopen _ rfl))
  | dangling hc hmore hnone =>
    -- a command without argument is spelled without the at sign
    have hlength := congrArg List.length htext
    simp [Command.chars, nameOf_word] at hlength

/-- Where a later quote closes the one with which an unknown argument starts, the spelling of the
command reads as the same command with a text. -/
lemma CommandForm.reread_closed {name : CommandName} {a : Argument}
    {rest tail payload after : List Char}
    (h : CommandForm ⟨name, some a⟩ (Command.chars ⟨name, some a⟩) [])
    (htail : a.quoteTail? = some tail)
    (hclosed : Text.Quoted.closing? (tail ++ rest) = some (payload, after)) :
    ∃ text, text ++ after = Command.chars ⟨name, some a⟩ ++ rest ∧
      CommandForm ⟨name, some ⟨.text, String.ofList payload⟩⟩ text after := by
  obtain ⟨hsplit, hpayload⟩ := closing?_eq_some_iff.1 hclosed
  have harg : ArgumentForm ⟨.text, String.ofList payload⟩ ('"' :: payload ++ ['"']) after :=
    ⟨by simpa using ArgForm.text hpayload, fun kind hlt => by simp [rank] at hlt⟩
  rw [quoteTail?_eq_some_iff] at htail
  generalize htext : Command.chars ⟨name, some a⟩ = text at h ⊢
  cases h with
  | argument hc hmore hold =>
    refine ⟨_, ?_, .argument hc hmore harg⟩
    rw [hold.text_eq, htail]
    simp [Argument.chars, ← hsplit]

/-! ### Tokens read again -/

/-- The spelling of a token, alone, reads as that token. -/
lemma KindForm.alone {kind : TokenKind} {text rest : List Char} (h : KindForm kind text rest) :
    KindForm kind kind.chars [] := by
  cases h with
  | reference => exact .reference (referenceForm_chars _ boundary_nil)
  | command hcmd => exact .command hcmd.alone

/-- Before a boundary the spelling of a token reads as that token, if a quote with which an
unknown argument starts stays open. -/
lemma KindForm.reread {kind : TokenKind} {rest : List Char} (h : KindForm kind kind.chars [])
    (hb : Boundary rest)
    (hopen : ∀ tail ∈ kind.quoteTail?, Text.Quoted.closing? (tail ++ rest) = none) :
    KindForm kind kind.chars rest := by
  cases kind with
  | reference r => exact .reference (referenceForm_chars r hb)
  | command cmd =>
    cases h with
    | command hcmd =>
      refine .command (hcmd.reread hb fun a ha tail htail => hopen tail ?_)
      exact Option.bind_eq_some_iff.2 ⟨a, ha, htail⟩

/-- Where such a quote is closed, another token stands. -/
lemma KindForm.reread_closed {kind : TokenKind} {rest tail : List Char}
    (h : KindForm kind kind.chars []) (htail : kind.quoteTail? = some tail)
    (hclosed : Text.Quoted.closing? (tail ++ rest) ≠ none) :
    ∃ other text after, text ++ after = kind.chars ++ rest ∧ KindForm other text after ∧
      other ≠ kind := by
  obtain ⟨⟨payload, after⟩, hread⟩ := Option.ne_none_iff_exists'.1 hclosed
  cases kind with
  | reference r => simp [TokenKind.quoteTail?] at htail
  | command cmd =>
    obtain ⟨a, ha, htail⟩ := Option.bind_eq_some_iff.1 htail
    obtain ⟨name, argument⟩ := cmd
    obtain rfl : argument = some a := ha
    cases h with
    | command hcmd =>
      obtain ⟨text, hsplit, hform⟩ := hcmd.reread_closed htail hread
      refine ⟨_, text, after, hsplit, .command hform, ?_⟩
      rw [quoteTail?_eq_some_iff.1 htail]
      simp

end Grammar

end ColonScript
