import Mathlib
import ColonScript.Lexeme

/-!
# The grammar of lexemes

`Lexeme.form?` is a cascade of readers.  This file states what they look for without reading:
as relations between a value, the text that spells it and the rest of the source.  The rest
matters because runs are taken as long as possible.

* `MaximalRun` is a run of one class of characters that the rest does not continue.
* `Payload` is what may stand between the quotes of a text.
* `SlotForm`, `ReferenceForm`, `ArgForm`, `ArgumentForm`, `CommandForm`, `KindForm` and `Form`
  go from slots up to whole lexemes.

The main result is `recognizes_form?`: at every place of every source the reader finds a form
exactly if there is one, and then that one.  So a form at a given place is unique
(`Form.unique`).
-/

namespace ColonScript.Grammar

open Lexeme

/-! ### Runs and quoted payloads -/

/-- A run of characters of one class that is not continued by what follows. -/
structure MaximalRun (p : Char → Bool) (run rest : List Char) : Prop where
  all : ∀ c ∈ run, p c = true
  stops : ∀ c ∈ rest.head?, p c = false

/-- What may stand between the quotes of a text: a backslash only before a quote or another
backslash, and no other quote. -/
inductive Payload : List Char → Prop
  | nil : Payload []
  | plain {c : Char} {more : List Char} (hquote : c ≠ '"') (hslash : c ≠ '\\')
      (hmore : Payload more) : Payload (c :: more)
  | escaped {c : Char} {more : List Char} (hc : c = '"' ∨ c = '\\') (hmore : Payload more) :
      Payload ('\\' :: c :: more)

/-! ### References -/

/-- The spelling of a slot: the longest run of digits, if its value is below `2 ^ 64`, or `-1`. -/
inductive SlotForm : SlotId → List Char → List Char → Prop
  | index {ds rest : List Char} (hne : ds ≠ []) (hrun : MaximalRun Char.isDigit ds rest)
      (hfits : Decimal.value ds < 2 ^ 64) :
      SlotForm (.index (UInt64.ofNat (Decimal.value ds))) ds rest
  | argCount {rest : List Char} : SlotForm .argCount ['-', '1'] rest

/-- The spelling of a reference: an optional `^`, a sigil and a slot. -/
inductive ReferenceForm : Reference → List Char → List Char → Prop
  | inner {sigil : Sigil} {id : SlotId} {text rest : List Char} (hslot : SlotForm id text rest) :
      ReferenceForm ⟨sigil, id, false⟩ (sigil.char :: text) rest
  | outer {sigil : Sigil} {id : SlotId} {text rest : List Char} (hslot : SlotForm id text rest) :
      ReferenceForm ⟨sigil, id, true⟩ ('^' :: sigil.char :: text) rest

/-! ### Arguments -/

/-- The spelling of an argument of a given kind, regardless of the other kinds: payload, text
and rest. -/
inductive ArgForm : ArgKind → List Char → List Char → List Char → Prop
  | text {payload rest : List Char} (hpayload : Payload payload) :
      ArgForm .text payload ('"' :: payload ++ ['"']) rest
  | word {w rest : List Char} (hne : w ≠ []) (hrun : MaximalRun isWordChar w rest) :
      ArgForm .word w w rest
  | index {ds rest : List Char} (hne : ds ≠ []) (hrun : MaximalRun Char.isDigit ds rest) :
      ArgForm .index ds ('~' :: ds) rest
  | dynamic {whole fraction rest : List Char} (hne : whole ≠ [] ∨ fraction ≠ [])
      (hwhole : ∀ c ∈ whole, c.isDigit = true)
      (hrun : MaximalRun Char.isDigit fraction rest) :
      ArgForm .dynamic (whole ++ '.' :: fraction) (whole ++ '.' :: fraction) rest
  | static {ds rest : List Char} (hne : ds ≠ []) (hrun : MaximalRun Char.isDigit ds rest) :
      ArgForm .static ds ds rest
  | unknown {w rest : List Char} (hne : w ≠ []) (hrun : MaximalRun isArgChar w rest) :
      ArgForm .unknown w w rest

/-- Whether an argument of a given kind can be read at the front of a text. -/
def Applies (kind : ArgKind) (cs : List Char) : Prop :=
  ∃ payload text rest, text ++ rest = cs ∧ ArgForm kind payload text rest

/-- The place of a kind in the order in which the kinds are tried. -/
def rank : ArgKind → ℕ
  | .text => 0
  | .word => 1
  | .index => 2
  | .dynamic => 3
  | .static => 4
  | .unknown => 5

/-- The spelling of an argument: its kind is the first that applies. -/
structure ArgumentForm (a : Argument) (text rest : List Char) : Prop where
  form : ArgForm a.kind a.payload.toList text rest
  first : ∀ kind, rank kind < rank a.kind → ¬ Applies kind (text ++ rest)

/-! ### Commands and lexemes -/

/-- The name that a spelling in any case stands for. -/
def nameOf (spelled : List Char) : CommandName :=
  CommandName.ofWord (String.ofList (spelled.map Char.toLower))

/-- The spelling of a command: a letter and the longest run of letters and underscores after
it, then nothing, or an at sign with an argument, or an at sign where no argument applies. -/
inductive CommandForm : Command → List Char → List Char → Prop
  | bare {c : Char} {more rest : List Char} (hc : c.isAlpha = true)
      (hrun : MaximalRun isWordChar more rest) (hat : rest.head? ≠ some '@') :
      CommandForm ⟨nameOf (c :: more), none⟩ (c :: more) rest
  | argument {c : Char} {more text rest : List Char} {a : Argument} (hc : c.isAlpha = true)
      (hmore : ∀ d ∈ more, isWordChar d = true) (harg : ArgumentForm a text rest) :
      CommandForm ⟨nameOf (c :: more), some a⟩ (c :: more ++ '@' :: text) rest
  | dangling {c : Char} {more rest : List Char} (hc : c.isAlpha = true)
      (hmore : ∀ d ∈ more, isWordChar d = true) (hnone : ∀ kind, ¬ Applies kind rest) :
      CommandForm ⟨nameOf (c :: more), none⟩ (c :: more ++ ['@']) rest

/-- The spelling of a token without its colon. -/
inductive KindForm : TokenKind → List Char → List Char → Prop
  | reference {r : Reference} {text rest : List Char} (hform : ReferenceForm r text rest) :
      KindForm (.reference r) text rest
  | command {c : Command} {text rest : List Char} (hform : CommandForm c text rest) :
      KindForm (.command c) text rest

/-- The spelling of a lexeme.  After one colon it stands for a token, after two for none. -/
inductive Form : Option TokenKind → List Char → List Char → Prop
  | token {kind : TokenKind} {text rest : List Char} (hkind : KindForm kind text rest) :
      Form (some kind) (':' :: text) rest
  | silent {kind : TokenKind} {text rest : List Char} (hkind : KindForm kind text rest) :
      Form none (':' :: ':' :: text) rest

/-! ### Readers that recognise a form -/

/-- A reader recognises a form if it finds it wherever it stands, and finds nothing else. -/
def Recognizes {α : Type} (reader : List Char → Option (Match α))
    (form : α → List Char → List Char → Prop) : Prop :=
  ∀ cs m, reader cs = some m ↔ m.Splits cs ∧ form m.value m.text m.rest

/-- It is enough to read each form where it stands and to read nothing but forms. -/
lemma recognizes_of {α : Type} {reader : List Char → Option (Match α)}
    {form : α → List Char → List Char → Prop}
    (hsplits : ∀ {cs m}, reader cs = some m → m.Splits cs)
    (hsound : ∀ {cs m}, reader cs = some m → form m.value m.text m.rest)
    (hcomplete : ∀ {a text rest}, form a text rest → reader (text ++ rest) = some ⟨a, text, rest⟩) :
    Recognizes reader form := by
  intro cs m
  constructor
  · intro h
    exact ⟨hsplits h, hsound h⟩
  · rintro ⟨rfl, hform⟩
    exact hcomplete hform

namespace Recognizes

variable {α : Type} {reader : List Char → Option (Match α)}
  {form : α → List Char → List Char → Prop}

/-- What a recognising reader returns has the form. -/
lemma sound (h : Recognizes reader form) {cs : List Char} {m : Match α}
    (hread : reader cs = some m) : form m.value m.text m.rest :=
  ((h cs m).1 hread).2

/-- A recognising reader returns the form that stands at the front of a text. -/
lemma complete (h : Recognizes reader form) {a : α} {text rest : List Char}
    (hform : form a text rest) : reader (text ++ rest) = some ⟨a, text, rest⟩ :=
  (h _ _).2 ⟨rfl, hform⟩

/-- A recognising reader returns nothing exactly where no form stands. -/
lemma eq_none_iff (h : Recognizes reader form) {cs : List Char} :
    reader cs = none ↔ ∀ a text rest, text ++ rest = cs → ¬ form a text rest := by
  constructor
  · rintro hnone a text rest rfl hform
    rw [h.complete hform] at hnone
    simp at hnone
  · intro hforms
    cases hread : reader cs with
    | none => rfl
    | some m =>
      obtain ⟨hsplits, hform⟩ := (h cs m).1 hread
      exact absurd hform (hforms _ _ _ hsplits)

/-- Two forms at the front of one text are the same. -/
lemma unique (h : Recognizes reader form) {a b : α} {text rest text' rest' : List Char}
    (hsame : text ++ rest = text' ++ rest') (ha : form a text rest) (hb : form b text' rest') :
    a = b ∧ text = text' ∧ rest = rest' := by
  have hread := h.complete ha
  rw [hsame, h.complete hb] at hread
  simp only [Option.some.injEq, Match.mk.injEq] at hread
  exact ⟨hread.1.symm, hread.2.1.symm, hread.2.2.symm⟩

end Recognizes

namespace MaximalRun

variable {p : Char → Bool} {run rest : List Char}

/-- Taking as many characters as possible takes exactly a maximal run. -/
lemma takeWhile_append (h : MaximalRun p run rest) : (run ++ rest).takeWhile p = run := by
  rw [List.takeWhile_append_of_pos h.all]
  cases rest with
  | nil => simp
  | cons c more =>
    have hc : p c = false := h.stops c rfl
    simp [hc]

/-- Dropping as many characters as possible leaves what follows a maximal run. -/
lemma dropWhile_append (h : MaximalRun p run rest) : (run ++ rest).dropWhile p = rest := by
  rw [List.dropWhile_append_of_pos h.all]
  cases rest with
  | nil => simp
  | cons c more =>
    have hc : p c = false := h.stops c rfl
    simp [hc]

end MaximalRun

/-- Taking as many characters as possible gives a maximal run. -/
lemma maximalRun_takeWhile (p : Char → Bool) (cs : List Char) :
    MaximalRun p (cs.takeWhile p) (cs.dropWhile p) := by
  refine ⟨fun c hc => List.mem_takeWhile_imp hc, fun c hc => ?_⟩
  have hhead := List.head?_dropWhile_not p cs
  rw [Option.mem_def.1 hc] at hhead
  simpa using hhead

/-- A run before a character of another class is maximal. -/
lemma maximalRun_cons {p : Char → Bool} {run rest : List Char} {c : Char}
    (hall : ∀ d ∈ run, p d = true) (hc : p c = false) : MaximalRun p run (c :: rest) := by
  refine ⟨hall, ?_⟩
  rintro d hd
  obtain rfl : c = d := by simpa using hd
  exact hc

/-! ### Slots and references -/

/-- The slot reader recognises slots. -/
lemma recognizes_slotId? : Recognizes slotId? SlotForm := by
  refine recognizes_of slotId?_splits ?_ ?_
  · intro cs m hread
    unfold slotId? at hread
    split at hread
    · simp only [Option.some.injEq] at hread
      subst hread
      exact .argCount
    · simp at hread
    · next hne _ =>
      split at hread
      · next hfits =>
        simp only [Option.some.injEq] at hread
        subst hread
        exact .index hne (maximalRun_takeWhile _ _) hfits
      · simp at hread
  · intro id text rest hform
    cases hform with
    | index hne hrun hfits =>
      unfold slotId?
      rw [hrun.takeWhile_append, hrun.dropWhile_append]
      split
      · exact absurd rfl hne
      · exact absurd rfl hne
      · exact if_pos hfits
    | argCount => rfl

/-- The character of a sigil stands for that sigil. -/
lemma sigil?_eq_some_iff {c : Char} {s : Sigil} : sigil? c = some s ↔ c = s.char := by
  unfold sigil?
  cases s <;> split_ifs <;> simp_all [Sigil.char]

/-- Reading a sigil and a slot recognises references without a mark, for either scope. -/
lemma recognizes_sigilSlot? (parent : Bool) :
    Recognizes (sigilSlot? parent) fun r text rest =>
      ∃ slot, text = r.sigil.char :: slot ∧ r.parent = parent ∧ SlotForm r.id slot rest := by
  refine recognizes_of sigilSlot?_splits ?_ ?_
  · intro cs m hread
    unfold sigilSlot? at hread
    split at hread
    · simp at hread
    · next c more =>
      split at hread
      · next sigil inner hsigil hslot =>
        simp only [Option.some.injEq] at hread
        subst hread
        rw [sigil?_eq_some_iff] at hsigil
        exact ⟨inner.text, by simp [Match.push, Match.map, hsigil], rfl,
          recognizes_slotId?.sound hslot⟩
      · simp at hread
  · rintro ⟨sigil, id, parent'⟩ text rest ⟨slot, rfl, rfl, hslot⟩
    have hsigil : sigil? sigil.char = some sigil := sigil?_eq_some_iff.2 rfl
    have hread := recognizes_slotId?.complete hslot
    simp [sigilSlot?, hsigil, hread, Match.push, Match.map]

/-- The reference reader recognises references. -/
lemma recognizes_reference? : Recognizes reference? ReferenceForm := by
  refine recognizes_of reference?_splits ?_ ?_
  · intro cs m hread
    unfold reference? at hread
    split at hread
    · obtain ⟨inner, hinner, rfl⟩ := Option.map_eq_some_iff.1 hread
      obtain ⟨slot, htext, hparent, hslot⟩ := (recognizes_sigilSlot? true).sound hinner
      obtain ⟨⟨sigil, id, parent⟩, text, rest⟩ := inner
      simp only at htext hparent hslot
      subst htext hparent
      exact .outer hslot
    · obtain ⟨slot, htext, hparent, hslot⟩ := (recognizes_sigilSlot? false).sound hread
      obtain ⟨⟨sigil, id, parent⟩, text, rest⟩ := m
      simp only at htext hparent hslot
      subst htext hparent
      exact .inner hslot
  · intro r text rest hform
    cases hform with
    | @inner sigil id slot _ hslot =>
      have hread := (recognizes_sigilSlot? false).complete
        (a := ⟨sigil, id, false⟩) ⟨slot, rfl, rfl, hslot⟩
      cases sigil <;> exact hread
    | @outer sigil id slot _ hslot =>
      have hread := (recognizes_sigilSlot? true).complete
        (a := ⟨sigil, id, true⟩) ⟨slot, rfl, rfl, hslot⟩
      simp only [reference?, List.cons_append] at hread ⊢
      rw [hread]
      rfl

/-! ### Quoted texts -/

/-- A search for a closing quote passes over a character that is neither a quote nor a
backslash. -/
lemma closing?_plain {c : Char} (hquote : c ≠ '"') (hslash : c ≠ '\\') (more : List Char) :
    Text.Quoted.closing? (c :: more) =
      (Text.Quoted.closing? more).map fun found => (c :: found.1, found.2) := by
  rw [Text.Quoted.closing?.eq_4 c more hquote (fun d _ hd _ => hslash hd), if_neg hslash]

/-- A payload that is followed by a quote is what the search for the closing quote finds. -/
lemma closing?_payload {payload : List Char} (h : Payload payload) (after : List Char) :
    Text.Quoted.closing? (payload ++ '"' :: after) = some (payload, after) := by
  induction h with
  | nil => rfl
  | @plain c more hquote hslash _ ih =>
    rw [List.cons_append, closing?_plain hquote hslash, ih]
    rfl
  | @escaped c more hc _ ih =>
    have hescaped : Text.Quoted.isEscaped c = true := by
      simpa [Text.Quoted.isEscaped] using hc
    simp [Text.Quoted.closing?, hescaped, ih]

/-- What the search for the closing quote finds is a payload. -/
lemma payload_of_closing? {cs payload after : List Char}
    (h : Text.Quoted.closing? cs = some (payload, after)) : Payload payload := by
  fun_induction Text.Quoted.closing? cs generalizing payload after with
  | case1 => simp at h
  | case2 more =>
    obtain ⟨rfl, rfl⟩ : [] = payload ∧ more = after := by simpa using h
    exact .nil
  | case3 c more hescaped ih =>
    obtain ⟨⟨inner, tail⟩, hinner, hsame⟩ := Option.map_eq_some_iff.1 h
    obtain ⟨rfl, rfl⟩ := Prod.mk.inj hsame
    exact .escaped (by simpa [Text.Quoted.isEscaped] using hescaped) (ih hinner)
  | case4 => simp at h
  | case5 => simp at h
  | case6 c more hquote _ hslash ih =>
    obtain ⟨⟨inner, tail⟩, hinner, hsame⟩ := Option.map_eq_some_iff.1 h
    obtain ⟨rfl, rfl⟩ := Prod.mk.inj hsame
    exact .plain hquote hslash (ih hinner)

/-- The search for the closing quote cuts a text after a payload, and there is only one way to
do so. -/
lemma closing?_eq_some_iff {cs payload after : List Char} :
    Text.Quoted.closing? cs = some (payload, after) ↔
      payload ++ '"' :: after = cs ∧ Payload payload := by
  constructor
  · intro h
    exact ⟨Text.Quoted.append_of_closing? h, payload_of_closing? h⟩
  · rintro ⟨rfl, hpayload⟩
    exact closing?_payload hpayload after

/-! ### Arguments of one kind -/

/-- The reader for the arguments of one kind. -/
def argReader : ArgKind → List Char → Option (Match Argument)
  | .text => quoted?
  | .word => run? .word isWordChar
  | .index => index?
  | .dynamic => pointed?
  | .static => run? .static Char.isDigit
  | .unknown => run? .unknown isArgChar

/-- The spelling of an argument that is known to be of a kind. -/
def OfKind (kind : ArgKind) (a : Argument) (text rest : List Char) : Prop :=
  a.kind = kind ∧ ArgForm kind a.payload.toList text rest

/-- The arguments of some kinds are spelled by a maximal run that is not empty. -/
def SpelledByRun (kind : ArgKind) (p : Char → Bool) : Prop :=
  ∀ payload text rest, ArgForm kind payload text rest ↔
    payload = text ∧ text ≠ [] ∧ MaximalRun p text rest

/-- Words are spelled by a run of letters and underscores. -/
lemma spelledByRun_word : SpelledByRun .word isWordChar := by
  refine fun payload text rest => ⟨?_, ?_⟩
  · rintro (_ | ⟨hne, hrun⟩)
    exact ⟨rfl, hne, hrun⟩
  · rintro ⟨rfl, hne, hrun⟩
    exact .word hne hrun

/-- Whole numbers are spelled by a run of digits. -/
lemma spelledByRun_static : SpelledByRun .static Char.isDigit := by
  refine fun payload text rest => ⟨?_, ?_⟩
  · rintro (_ | _ | _ | _ | ⟨hne, hrun⟩)
    exact ⟨rfl, hne, hrun⟩
  · rintro ⟨rfl, hne, hrun⟩
    exact .static hne hrun

/-- Unknown arguments are spelled by a run without colons and blanks. -/
lemma spelledByRun_unknown : SpelledByRun .unknown isArgChar := by
  refine fun payload text rest => ⟨?_, ?_⟩
  · rintro (_ | _ | _ | _ | _ | ⟨hne, hrun⟩)
    exact ⟨rfl, hne, hrun⟩
  · rintro ⟨rfl, hne, hrun⟩
    exact .unknown hne hrun

/-- Reading a run recognises the maximal runs that are not empty. -/
lemma recognizes_run? (kind : ArgKind) (p : Char → Bool) :
    Recognizes (run? kind p) fun a text rest =>
      a = ⟨kind, String.ofList text⟩ ∧ text ≠ [] ∧ MaximalRun p text rest := by
  refine recognizes_of run?_splits ?_ ?_
  · intro cs m hread
    unfold run? at hread
    split at hread
    · simp at hread
    · next hne =>
      simp only [Option.some.injEq] at hread
      subst hread
      exact ⟨rfl, hne, maximalRun_takeWhile p cs⟩
  · rintro a text rest ⟨rfl, hne, hrun⟩
    unfold run?
    rw [hrun.takeWhile_append, hrun.dropWhile_append]
    split
    · exact absurd rfl hne
    · rfl

/-- A run reader recognises the arguments of its kind where these are spelled by a run. -/
lemma SpelledByRun.recognizes_run? {kind : ArgKind} {p : Char → Bool} (h : SpelledByRun kind p) :
    Recognizes (run? kind p) (OfKind kind) := by
  intro cs m
  rw [Grammar.recognizes_run? kind p cs m]
  obtain ⟨⟨kind', payload⟩, text, rest⟩ := m
  simp only [OfKind, h payload.toList text rest, Argument.mk.injEq]
  constructor
  · rintro ⟨hsplits, ⟨rfl, rfl⟩, hne, hrun⟩
    exact ⟨hsplits, rfl, by simp, hne, hrun⟩
  · rintro ⟨hsplits, rfl, hpayload, hne, hrun⟩
    exact ⟨hsplits, ⟨rfl, by rw [← hpayload, String.ofList_toList]⟩, hne, hrun⟩

/-- The reader for quoted texts recognises them. -/
lemma recognizes_quoted? : Recognizes quoted? (OfKind .text) := by
  refine recognizes_of quoted?_splits ?_ ?_
  · intro cs m hread
    unfold quoted? at hread
    split at hread
    · obtain ⟨⟨payload, after⟩, hclosing, rfl⟩ := Option.map_eq_some_iff.1 hread
      have hpayload : Payload payload := payload_of_closing? hclosing
      refine ⟨rfl, ?_⟩
      simpa using ArgForm.text hpayload
    · simp at hread
  · rintro ⟨kind, payload⟩ text rest ⟨rfl, hform⟩
    cases hform with
    | text hpayload =>
      have hclosing := closing?_payload hpayload rest
      simp [quoted?, hclosing]

/-- The reader for indices recognises them. -/
lemma recognizes_index? : Recognizes index? (OfKind .index) := by
  refine recognizes_of index?_splits ?_ ?_
  · intro cs m hread
    unfold index? at hread
    split at hread
    · obtain ⟨inner, hinner, rfl⟩ := Option.map_eq_some_iff.1 hread
      obtain ⟨hvalue, hne, hrun⟩ := (recognizes_run? .index Char.isDigit).sound hinner
      refine ⟨by simp [Match.push, hvalue], ?_⟩
      simpa [Match.push, hvalue] using ArgForm.index hne hrun
    · simp at hread
  · rintro ⟨kind, payload⟩ text rest ⟨rfl, hform⟩
    cases hform with
    | index hne hrun =>
      have hread := (recognizes_run? .index Char.isDigit).complete ⟨rfl, hne, hrun⟩
      simp [index?, hread, Match.push]

/-- The reader for numbers with a point recognises them. -/
lemma recognizes_pointed? : Recognizes pointed? (OfKind .dynamic) := by
  have hpoint : Char.isDigit '.' = false := by decide
  refine recognizes_of pointed?_splits ?_ ?_
  · intro cs m hread
    unfold pointed? at hread
    simp only at hread
    split at hread
    · next more hmore =>
      split at hread
      · simp at hread
      · next hne =>
        simp only [Option.some.injEq] at hread
        subst hread
        refine ⟨rfl, ?_⟩
        rw [String.toList_ofList]
        simp only [Bool.and_eq_true, List.isEmpty_iff, not_and_or] at hne
        exact .dynamic hne (maximalRun_takeWhile _ cs).all (maximalRun_takeWhile _ more)
    · simp at hread
  · rintro ⟨kind, payload⟩ text rest ⟨rfl, hform⟩
    generalize htext : payload.toList = word at hform
    cases hform with
    | @dynamic whole fraction _ hne hwhole hrun =>
      -- the digits before the point end at the point, those after it at the rest
      have hbefore : MaximalRun Char.isDigit whole ('.' :: (fraction ++ rest)) :=
        maximalRun_cons hwhole hpoint
      have hempty : ¬ (whole.isEmpty && fraction.isEmpty) = true := by
        simpa only [Bool.and_eq_true, List.isEmpty_iff, not_and_or] using hne
      have hpayload : payload = String.ofList (whole ++ '.' :: fraction) := by
        rw [← htext, String.ofList_toList]
      unfold pointed?
      simp only [List.append_assoc, List.cons_append, hbefore.takeWhile_append,
        hbefore.dropWhile_append, hrun.takeWhile_append, hrun.dropWhile_append]
      rw [if_neg hempty, hpayload]

/-- The reader for each kind recognises the arguments of that kind. -/
lemma recognizes_argReader (kind : ArgKind) : Recognizes (argReader kind) (OfKind kind) := by
  cases kind with
  | text => exact recognizes_quoted?
  | word => exact spelledByRun_word.recognizes_run?
  | index => exact recognizes_index?
  | dynamic => exact recognizes_pointed?
  | static => exact spelledByRun_static.recognizes_run?
  | unknown => exact spelledByRun_unknown.recognizes_run?

/-- A kind applies at the front of a text exactly if its reader finds something there. -/
lemma not_applies_iff {kind : ArgKind} {cs : List Char} :
    ¬ Applies kind cs ↔ argReader kind cs = none := by
  rw [(recognizes_argReader kind).eq_none_iff]
  constructor
  · rintro hnot a text rest hsplits ⟨-, hform⟩
    exact hnot ⟨_, text, rest, hsplits, hform⟩
  · rintro hnone ⟨payload, text, rest, hsplits, hform⟩
    exact hnone ⟨kind, String.ofList payload⟩ text rest hsplits ⟨rfl, by simpa using hform⟩

/-! ### Arguments, commands and lexemes -/

/-- The argument reader takes the first kind whose reader finds something. -/
lemma argument?_eq_some_iff {cs : List Char} {m : Match Argument} :
    argument? cs = some m ↔
      ∃ kind, argReader kind cs = some m ∧
        ∀ other, rank other < rank kind → argReader other cs = none := by
  simp only [argument?, Option.or_eq_some_iff]
  constructor
  · rintro (((((h | ⟨h₀, h⟩) | ⟨h₁, h⟩) | ⟨h₂, h⟩) | ⟨h₃, h⟩) | ⟨h₄, h⟩)
    · refine ⟨.text, h, fun other hlt => ?_⟩
      cases other <;> simp [rank] at hlt
    · refine ⟨.word, h, fun other hlt => ?_⟩
      cases other <;> simp_all [rank, argReader]
    · refine ⟨.index, h, fun other hlt => ?_⟩
      cases other <;> simp_all [rank, argReader]
    · refine ⟨.dynamic, h, fun other hlt => ?_⟩
      cases other <;> simp_all [rank, argReader]
    · refine ⟨.static, h, fun other hlt => ?_⟩
      cases other <;> simp_all [rank, argReader]
    · refine ⟨.unknown, h, fun other hlt => ?_⟩
      cases other <;> simp_all [rank, argReader]
  · rintro ⟨kind, h, hfirst⟩
    have htext := hfirst .text
    have hword := hfirst .word
    have hindex := hfirst .index
    have hdynamic := hfirst .dynamic
    have hstatic := hfirst .static
    cases kind <;> simp_all [rank, argReader]

/-- The argument reader finds nothing exactly if no kind applies. -/
lemma argument?_eq_none_iff {cs : List Char} :
    argument? cs = none ↔ ∀ kind, ¬ Applies kind cs := by
  simp only [not_applies_iff]
  constructor
  · intro hnone kind
    simp only [argument?, Option.or_eq_none_iff] at hnone
    cases kind <;> simp_all [argReader]
  · intro hnone
    cases hread : argument? cs with
    | none => rfl
    | some m =>
      obtain ⟨kind, hkind, -⟩ := argument?_eq_some_iff.1 hread
      rw [hnone kind] at hkind
      simp at hkind

/-- The argument reader recognises arguments. -/
lemma recognizes_argument? : Recognizes argument? ArgumentForm := by
  intro cs m
  rw [argument?_eq_some_iff]
  constructor
  · rintro ⟨kind, hread, hfirst⟩
    obtain ⟨hsplits, hkind, hform⟩ := (recognizes_argReader kind cs m).1 hread
    subst hkind
    refine ⟨hsplits, hform, fun other hlt => ?_⟩
    rw [hsplits, not_applies_iff]
    exact hfirst other hlt
  · rintro ⟨hsplits, hform, hfirst⟩
    have hread := (recognizes_argReader m.value.kind cs m).2 ⟨hsplits, rfl, hform⟩
    refine ⟨m.value.kind, hread, fun other hlt => ?_⟩
    rw [← not_applies_iff, ← hsplits]
    exact hfirst other hlt

/-- The at sign ends a name. -/
lemma isWordChar_at : isWordChar '@' = false := by decide

/-- What the command reader returns is a command. -/
lemma commandForm_of_command? {cs : List Char} {m : Match Command} (hread : command? cs = some m) :
    CommandForm m.value m.text m.rest := by
  unfold command? at hread
  split at hread
  · simp at hread
  · next c more =>
    split at hread
    · next hc =>
      have hrun := maximalRun_takeWhile isWordChar more
      simp only at hread
      split at hread
      · next after hat =>
        split at hread
        · next inner harg =>
          obtain rfl := Option.some.inj hread
          exact .argument hc hrun.all (recognizes_argument?.sound harg)
        · next harg =>
          obtain rfl := Option.some.inj hread
          exact .dangling hc hrun.all (argument?_eq_none_iff.1 harg)
      · next hat =>
        obtain rfl := Option.some.inj hread
        refine .bare hc hrun fun hhead => ?_
        obtain ⟨after, hafter⟩ := List.head?_eq_some_iff.1 hhead
        exact hat after hafter
    · simp at hread

/-- The command reader returns the command that stands at the front of a text. -/
lemma command?_of_commandForm {cmd : Command} {text rest : List Char}
    (hform : CommandForm cmd text rest) : command? (text ++ rest) = some ⟨cmd, text, rest⟩ := by
  cases hform with
  | @bare c more _ hc hrun hat =>
    simp only [command?, List.cons_append, hc, if_true, hrun.takeWhile_append,
      hrun.dropWhile_append]
    split
    · exact absurd rfl hat
    · rfl
  | @argument c more inner _ a hc hmore harg =>
    have hrun : MaximalRun isWordChar more ('@' :: (inner ++ rest)) :=
      maximalRun_cons hmore isWordChar_at
    have hread := recognizes_argument?.complete harg
    simp only [command?, List.cons_append, List.append_assoc, hc, if_true,
      hrun.takeWhile_append, hrun.dropWhile_append, hread]
    rfl
  | @dangling c more _ hc hmore hnone =>
    have hrun : MaximalRun isWordChar more ('@' :: rest) := maximalRun_cons hmore isWordChar_at
    have hread := argument?_eq_none_iff.2 hnone
    simp only [command?, List.cons_append, List.append_assoc, List.nil_append, hc, if_true,
      hrun.takeWhile_append, hrun.dropWhile_append, hread]
    rfl

/-- The command reader recognises commands. -/
lemma recognizes_command? : Recognizes command? CommandForm :=
  recognizes_of command?_splits commandForm_of_command? command?_of_commandForm

/-- A reference starts with a mark or a sigil. -/
lemma ReferenceForm.head {r : Reference} {text rest : List Char} (h : ReferenceForm r text rest) :
    ∃ c more, text = c :: more ∧ (c = '^' ∨ c = '~' ∨ c = '&') := by
  cases h with
  | @inner sigil _ slot =>
    refine ⟨sigil.char, slot, rfl, ?_⟩
    cases sigil <;> simp [Sigil.char]
  | outer => exact ⟨'^', _, rfl, by simp⟩

/-- A command starts with a letter. -/
lemma CommandForm.head {cmd : Command} {text rest : List Char} (h : CommandForm cmd text rest) :
    ∃ c more, text = c :: more ∧ c.isAlpha = true := by
  cases h with
  | bare hc => exact ⟨_, _, rfl, hc⟩
  | argument hc => exact ⟨_, _, List.cons_append, hc⟩
  | dangling hc => exact ⟨_, _, List.cons_append, hc⟩

/-- No reference stands where a command does. -/
lemma CommandForm.reference?_eq_none {cmd : Command} {text rest : List Char}
    (h : CommandForm cmd text rest) : reference? (text ++ rest) = none := by
  obtain ⟨c, more, rfl, hc⟩ := h.head
  rw [recognizes_reference?.eq_none_iff]
  intro r text' rest' hsame href
  obtain ⟨d, more', rfl, hd⟩ := href.head
  obtain rfl : d = c := (List.cons.inj hsame).1
  rcases hd with rfl | rfl | rfl <;> simp at hc

/-- The reader for what follows a colon recognises references and commands. -/
lemma recognizes_tokenKind? : Recognizes tokenKind? KindForm := by
  refine recognizes_of tokenKind?_splits ?_ ?_
  · intro cs m hread
    simp only [tokenKind?, Option.or_eq_some_iff] at hread
    rcases hread with href | ⟨-, hcmd⟩
    · obtain ⟨inner, hinner, rfl⟩ := Option.map_eq_some_iff.1 href
      exact .reference (recognizes_reference?.sound hinner)
    · obtain ⟨inner, hinner, rfl⟩ := Option.map_eq_some_iff.1 hcmd
      exact .command (recognizes_command?.sound hinner)
  · intro kind text rest hform
    cases hform with
    | reference href =>
      have hread := recognizes_reference?.complete href
      simp [tokenKind?, hread, Match.map]
    | command hcmd =>
      have hread := recognizes_command?.complete hcmd
      simp [tokenKind?, hcmd.reference?_eq_none, hread, Match.map]

/-- What follows the colons of a lexeme does not start with a colon. -/
lemma KindForm.head_ne {kind : TokenKind} {text rest : List Char} (h : KindForm kind text rest) :
    ∃ c more, text = c :: more ∧ c ≠ ':' := by
  cases h with
  | reference href =>
    obtain ⟨c, more, rfl, hc⟩ := href.head
    refine ⟨c, more, rfl, ?_⟩
    rcases hc with rfl | rfl | rfl <;> decide
  | command hcmd =>
    obtain ⟨c, more, rfl, hc⟩ := hcmd.head
    refine ⟨c, more, rfl, ?_⟩
    rintro rfl
    simp at hc

/-- The reader for lexemes recognises them. -/
theorem recognizes_form? : Recognizes form? Form := by
  refine recognizes_of form?_splits ?_ ?_
  · intro cs m hread
    unfold form? at hread
    split at hread
    · obtain ⟨inner, hinner, rfl⟩ := Option.map_eq_some_iff.1 hread
      exact .silent (recognizes_tokenKind?.sound hinner)
    · obtain ⟨inner, hinner, rfl⟩ := Option.map_eq_some_iff.1 hread
      exact .token (recognizes_tokenKind?.sound hinner)
    · simp at hread
  · intro value text rest hform
    cases hform with
    | @token kind inner _ hkind =>
      have hread := recognizes_tokenKind?.complete hkind
      obtain ⟨c, more, rfl, hc⟩ := hkind.head_ne
      rw [List.cons_append] at hread
      rw [List.cons_append, List.cons_append,
        form?.eq_2 _ (fun more' hmore => hc (List.cons.inj hmore).1), hread]
      rfl
    | silent hkind =>
      have hread := recognizes_tokenKind?.complete hkind
      simp [form?, hread, Match.map, Match.push]

/-- At most one lexeme stands at the front of a text. -/
theorem Form.unique {a b : Option TokenKind} {text rest text' rest' : List Char}
    (hsame : text ++ rest = text' ++ rest') (ha : Form a text rest) (hb : Form b text' rest') :
    a = b ∧ text = text' ∧ rest = rest' :=
  recognizes_form?.unique hsame ha hb

/-- A lexeme starts with a colon. -/
lemma Form.head {value : Option TokenKind} {text rest : List Char} (h : Form value text rest) :
    ∃ more, text = ':' :: more := by
  cases h with
  | token => exact ⟨_, rfl⟩
  | silent => exact ⟨_, rfl⟩

end ColonScript.Grammar
