import ColonScript.Program.Listing
import ColonScript.Proofs.DecimalText
import ColonScript.Proofs.Escaping
import ColonScript.Proofs.RoundTrip

/-!
# Programs by their listings

A listing can be read only one way: it determines the settings, the constants and the statements of
its program (`Program.listingBy_eq_iff`).  The compiler that it names is given, since its name and
its version may be any texts.

The proof goes along the listing and takes one part after the other from the front.  Most parts are
words, which end at the next blank or line end (`spaced_append_inj`), and an action is nothing but
its words (`Action.words_injective`).  A text may contain blanks and line ends, but it ends at its
closing quote (`Value.quote_append_inj`), and a number is followed by a line end.
-/

namespace ColonScript

open Grammar (MaximalRun)

lemma Grammar.MaximalRun.append_inj {p : Char → Bool} {a b s t : List Char}
    (ha : MaximalRun p a s) (hb : MaximalRun p b t) (h : a ++ s = b ++ t) : a = b ∧ s = t := by
  constructor
  · rw [← ha.takeWhile_append, h, hb.takeWhile_append]
  · rw [← ha.dropWhile_append, h, hb.dropWhile_append]

/-- Two texts may have the same front. -/
lemma cancel_front {front a b : String} {s t : List Char}
    (h : (front ++ a).toList ++ s = (front ++ b).toList ++ t) : a.toList ++ s = b.toList ++ t := by
  simpa only [String.toList_append, List.append_assoc, List.append_cancel_left_eq] using h

/-- What stands on a line ends at the line end. -/
lemma line_append_inj {a b s t : List Char} (ha : '\n' ∉ a) (hb : '\n' ∉ b)
    (h : a ++ '\n' :: s = b ++ '\n' :: t) : a = b ∧ s = t := by
  have hrun {a s : List Char} (ha : '\n' ∉ a) : MaximalRun (· != '\n') a ('\n' :: s) := by
    refine ⟨fun c hc => ?_, by simp⟩
    rw [bne_iff_ne]
    rintro rfl
    exact ha hc
  obtain ⟨hline, hrest⟩ := (hrun ha).append_inj (hrun hb) h
  exact ⟨hline, (List.cons.inj hrest).2⟩

/-! ### Words -/

/-- Whether a character can stand in a word of a listing. -/
def inWord (c : Char) : Bool :=
  c != ' ' && c != '\n'

/-- Whether a text is one word. -/
def isWord (s : String) : Bool :=
  s.toList.all inWord

lemma isWord_iff {s : String} : isWord s = true ↔ ∀ c ∈ s.toList, inWord c = true :=
  List.all_eq_true

lemma inWord_of_isDigit {c : Char} (h : c.isDigit = true) : inWord c = true := by
  rw [inWord, Bool.and_eq_true, bne_iff_ne, bne_iff_ne]
  constructor
  · rintro rfl
    exact absurd h (by decide)
  · rintro rfl
    exact absurd h (by decide)

lemma isWord_append (s t : String) : isWord (s ++ t) = (isWord s && isWord t) := by
  rw [isWord, String.toList_append, List.all_append, isWord, isWord]

lemma isWord_toString (n : ℕ) : isWord (toString n) = true := by
  rw [isWord_iff]
  intro c hc
  rw [Nat.toString_eq_ofList_toDigits, String.toList_ofList] at hc
  exact inWord_of_isDigit (Decimal.isDigit_of_mem_digits hc)

/-- Words with a blank before each of them. -/
def spaced (words : List String) : List Char :=
  words.flatMap (' ' :: ·.toList)

@[simp] lemma spaced_nil : spaced [] = [] := rfl

@[simp] lemma spaced_cons (w : String) (words : List String) :
    spaced (w :: words) = ' ' :: w.toList ++ spaced words := rfl

/-- What follows a word is a blank or a line end. -/
lemma maximalRun_word {w : String} (hw : isWord w = true) (words : List String) (s : List Char) :
    MaximalRun inWord w.toList (spaced words ++ '\n' :: s) := by
  refine ⟨isWord_iff.1 hw, ?_⟩
  cases words with
  | nil => simp [inWord]
  | cons v more => simp [inWord]

/-- The words of a line can be told from the line. -/
lemma spaced_append_inj {words words' : List String} {s t : List Char}
    (hwords : ∀ w ∈ words, isWord w = true) (hwords' : ∀ w ∈ words', isWord w = true)
    (h : spaced words ++ '\n' :: s = spaced words' ++ '\n' :: t) : words = words' ∧ s = t := by
  induction words generalizing words' with
  | nil =>
    cases words' with
    | nil => exact ⟨rfl, (List.cons.inj h).2⟩
    | cons v more => simp at h
  | cons w more ih =>
    cases words' with
    | nil => simp at h
    | cons v more' =>
      obtain ⟨hw, hmore⟩ := List.forall_mem_cons.1 hwords
      obtain ⟨hv, hmore'⟩ := List.forall_mem_cons.1 hwords'
      simp only [spaced_cons, List.cons_append, List.append_assoc, List.cons.injEq,
        true_and] at h
      obtain ⟨hfirst, hrest⟩ :=
        (maximalRun_word hw more s).append_inj (maximalRun_word hv more' t) h
      obtain ⟨rfl, rfl⟩ := ih hmore hmore' hrest
      exact ⟨by rw [String.toList_inj.1 hfirst], rfl⟩

/-! ### Loads and actions -/

lemma Reserved.name_injective : Function.Injective Reserved.name := by
  intro r s h
  cases r <;> cases s <;> first | rfl | exact absurd h (by decide)

lemma TypeTag.name_injective : Function.Injective TypeTag.name := by
  intro r s h
  cases r <;> cases s <;> first | rfl | exact absurd h (by decide)

lemma isWord_type (type : TypeTag) : isWord type.name = true := by
  cases type <;> decide

lemma SlotId.text_injective : Function.Injective SlotId.text := by
  intro a b h
  have ha := Grammar.slotForm_chars a Grammar.boundary_nil
  have hb := Grammar.slotForm_chars b Grammar.boundary_nil
  rw [text, text, String.ofList_inj] at h
  exact (Grammar.recognizes_slotId?.unique (by rw [h]) ha hb).1

lemma Reference.text_injective : Function.Injective Reference.text := by
  intro r s h
  have hr := Grammar.referenceForm_chars r Grammar.boundary_nil
  have hs := Grammar.referenceForm_chars s Grammar.boundary_nil
  rw [text, text, String.ofList_inj] at h
  exact (Grammar.recognizes_reference?.unique (by rw [h]) hr hs).1

lemma isWord_reference (r : Reference) : isWord r.text = true := by
  have hform := Grammar.referenceForm_chars r Grammar.boundary_nil
  have hother : ∀ c ∈ ['^', '~', '&', '-'], inWord c = true := by simp [inWord]
  rw [isWord_iff, Reference.text, String.toList_ofList]
  intro c hc
  exact (hform.isDigit_or_mem c hc).elim inWord_of_isDigit (hother c)

/-- A slot is spelled like a variable without its sigil. -/
lemma isWord_slot (id : SlotId) : isWord id.text = true := by
  have hvariable := isWord_reference ⟨.var, id, false⟩
  rw [isWord_iff] at hvariable ⊢
  intro c hc
  rw [SlotId.text, String.toList_ofList] at hc
  apply hvariable
  simp [Reference.text, Reference.chars, Reference.nameChars, hc]

namespace Load

lemma isWord_listed (l : Load) : isWord l.listed = true := by
  cases l with
  | const index =>
    simp only [listed, isWord_append, isWord_toString, Bool.and_true]
    decide
  | reserved r => cases r <;> decide
  | slot r =>
    simp only [listed, isWord_append, isWord_reference, Bool.and_true]
    decide
  | slotUnchecked r =>
    simp only [listed, isWord_append, isWord_reference, Bool.and_true]
    decide

lemma listed_injective : Function.Injective listed := by
  intro l m h
  have htext := congrArg String.toList h
  -- the first character tells which kind of load it is
  cases l with
  | const i =>
    cases m with
    | const j =>
      have hindex : i.repr = j.repr := by simpa [listed] using h
      rw [Nat.repr_injective hindex]
    | _ => simp [listed] at htext
  | reserved r =>
    cases m with
    | reserved s =>
      have hname : r.name = s.name := by simpa [listed] using h
      rw [Reserved.name_injective hname]
    | _ => simp [listed] at htext
  | slot r =>
    cases m with
    | slot s =>
      have hreference : r.text = s.text := by simpa [listed] using h
      rw [Reference.text_injective hreference]
    | _ => simp [listed] at htext
  | slotUnchecked r =>
    cases m with
    | slotUnchecked s =>
      have hreference : r.text = s.text := by simpa [listed] using h
      rw [Reference.text_injective hreference]
    | _ => simp [listed] at htext

/-- No load is listed as the word before a format. -/
lemma listed_ne_fmt (l : Load) : l.listed ≠ "fmt" := by
  intro h
  have htext := congrArg String.toList h
  cases l <;> simp [listed] at htext

end Load

namespace Action

/-- The words of an action. -/
def words : Action → List String
  | create id type => ["create", "~" ++ id.text, type.name]
  | set id value => ["set", "~" ++ id.text, value.listed]
  | write id type none => ["write", "~" ++ id.text, type.name]
  | write id type (some value) => ["write", "~" ++ id.text, type.name, value.listed]
  | echo none values => "echo" :: values.map Load.listed
  | echo (some format) values =>
    "echo" :: "fmt" :: ("#" ++ toString format) :: values.map Load.listed

lemma flatMap_toList_loads (loads : List Load) :
    (loads.map (" " ++ ·.listed)).flatMap String.toList = spaced (loads.map Load.listed) := by
  simp [spaced, List.flatMap_map]

/-- An action is listed by its words. -/
lemma cons_listed (a : Action) : ' ' :: a.listed.toList = spaced a.words := by
  cases a with
  | create id type => simp [listed, words]
  | set id value => simp [listed, words]
  | write id type value => cases value <;> simp [listed, words]
  | echo format values => cases format <;> simp [listed, words, flatMap_toList_loads]

lemma isWord_of_mem_words (a : Action) : ∀ w ∈ a.words, isWord w = true := by
  have hslot (id : SlotId) : isWord ("~" ++ id.text) = true := by
    rw [isWord_append, isWord_slot, Bool.and_true]
    decide
  have hindex (n : ℕ) : isWord ("#" ++ toString n) = true := (Load.const n).isWord_listed
  have hloads (loads : List Load) : ∀ w ∈ loads.map Load.listed, isWord w = true := by
    intro w hw
    obtain ⟨l, -, rfl⟩ := List.mem_map.1 hw
    exact l.isWord_listed
  have hcreate : isWord "create" = true := by decide
  have hset : isWord "set" = true := by decide
  have hwrite : isWord "write" = true := by decide
  have hecho : isWord "echo" = true := by decide
  have hfmt : isWord "fmt" = true := by decide
  cases a with
  | create id type => simp [words, hcreate, hslot, isWord_type]
  | set id value => simp [words, hset, hslot, value.isWord_listed]
  | write id type value =>
    cases value <;> simp [words, hwrite, hslot, isWord_type, Load.isWord_listed]
  | echo format values =>
    cases format with
    | none => exact List.forall_mem_cons.2 ⟨hecho, hloads values⟩
    | some n =>
      exact List.forall_mem_cons.2 ⟨hecho, List.forall_mem_cons.2 ⟨hfmt,
        List.forall_mem_cons.2 ⟨hindex n, hloads values⟩⟩⟩

/-- The first word of an action. -/
def keyword : Action → String
  | create .. => "create"
  | set .. => "set"
  | write .. => "write"
  | echo .. => "echo"

lemma head?_words (a : Action) : a.words.head? = some a.keyword := by
  cases a with
  | create id type => rfl
  | set id value => rfl
  | write id type value => cases value <;> rfl
  | echo format values => cases format <;> rfl

lemma map_listed_inj {values others : List Load} :
    values.map Load.listed = others.map Load.listed ↔ values = others :=
  List.map_inj_right Load.listed_injective

/-- No loads are listed as a format and what follows it. -/
lemma map_listed_ne_fmt (values : List Load) (rest : List String) :
    values.map Load.listed ≠ "fmt" :: rest := by
  intro h
  obtain ⟨l, more, -, hl, -⟩ := List.map_eq_cons_iff.1 h
  exact l.listed_ne_fmt hl

/-- A format can be told from the values that are printed. -/
lemma words_echo_inj {format format' : Option ℕ} {values values' : List Load}
    (h : (echo format values).words = (echo format' values').words) :
    format = format' ∧ values = values' := by
  cases format with
  | none =>
    cases format' with
    | none => exact ⟨rfl, map_listed_inj.1 (List.cons.inj h).2⟩
    | some n => exact absurd (List.cons.inj h).2 (map_listed_ne_fmt _ _)
  | some n =>
    cases format' with
    | none => exact absurd (List.cons.inj h).2.symm (map_listed_ne_fmt _ _)
    | some n' =>
      obtain ⟨hformat, hvalues⟩ := List.cons.inj (List.cons.inj (List.cons.inj h).2).2
      have hindex := Load.const.inj (Load.listed_injective hformat)
      exact ⟨congrArg some hindex, map_listed_inj.1 hvalues⟩

/-- An action can be told from its words. -/
lemma words_injective : Function.Injective words := by
  intro a b h
  have hkeyword : a.keyword = b.keyword := by
    have hhead := congrArg List.head? h
    rw [head?_words, head?_words] at hhead
    exact Option.some.inj hhead
  cases a with
  | create id type =>
    cases b with
    | create id' type' =>
      simp only [words, List.cons.injEq, String.append_right_inj, SlotId.text_injective.eq_iff,
        TypeTag.name_injective.eq_iff, and_true, true_and] at h
      rw [h.1, h.2]
    | _ => simp [keyword] at hkeyword
  | set id value =>
    cases b with
    | set id' value' =>
      simp only [words, List.cons.injEq, String.append_right_inj, SlotId.text_injective.eq_iff,
        Load.listed_injective.eq_iff, and_true, true_and] at h
      rw [h.1, h.2]
    | _ => simp [keyword] at hkeyword
  | write id type value =>
    cases b with
    | write id' type' value' =>
      cases value <;> cases value' <;>
        simp [words, SlotId.text_injective.eq_iff, TypeTag.name_injective.eq_iff,
          Load.listed_injective.eq_iff] at h ⊢ <;> exact h
    | _ => simp [keyword] at hkeyword
  | echo format values =>
    cases b with
    | echo format' values' =>
      obtain ⟨rfl, rfl⟩ := words_echo_inj h
      rfl
    | _ => simp [keyword] at hkeyword

/-- An action can be told from the line that it ends. -/
lemma listed_append_inj {a b : Action} {s t : List Char}
    (h : a.listed.toList ++ '\n' :: s = b.listed.toList ++ '\n' :: t) : a = b ∧ s = t := by
  have hspaced := congrArg (' ' :: ·) h
  simp only [← List.cons_append, cons_listed] at hspaced
  obtain ⟨hwords, hrest⟩ :=
    spaced_append_inj a.isWord_of_mem_words b.isWord_of_mem_words hspaced
  exact ⟨words_injective hwords, hrest⟩

end Action

/-! ### Statements -/

namespace Statement

lemma toList_listed (a : Statement) :
    a.listed.toList = List.replicate (4 - (Decimal.digits a.line).length) ' ' ++
      (Decimal.digits a.line ++ ' ' :: ' ' :: a.action.listed.toList) := by
  simp [listed, lineNumber]

lemma maximalRun_line (n : ℕ) (s : List Char) :
    MaximalRun Char.isDigit (Decimal.digits n) (' ' :: s) :=
  ⟨fun _ => Decimal.isDigit_of_mem_digits, by simp⟩

/-- The blanks before a line number end with it. -/
lemma maximalRun_blanks (k n : ℕ) (s : List Char) :
    MaximalRun (· == ' ') (List.replicate k ' ') (Decimal.digits n ++ s) := by
  refine ⟨by simp, fun c hc => ?_⟩
  obtain ⟨d, more, hdigits⟩ := List.exists_cons_of_ne_nil (Decimal.digits_ne_nil n)
  rw [hdigits, List.cons_append, List.head?_cons, Option.mem_some_iff] at hc
  subst hc
  have hdigit : d.isDigit = true := Decimal.isDigit_of_mem_digits (n := n) (by simp [hdigits])
  rw [beq_eq_false_iff_ne]
  rintro rfl
  exact absurd hdigit (by decide)

/-- A statement can be told from its line. -/
lemma listed_append_inj {a b : Statement} {s t : List Char}
    (h : a.listed.toList ++ '\n' :: s = b.listed.toList ++ '\n' :: t) : a = b ∧ s = t := by
  obtain ⟨line, action⟩ := a
  obtain ⟨line', action'⟩ := b
  simp only [toList_listed, List.append_assoc] at h
  obtain ⟨-, hnumber⟩ :=
    (maximalRun_blanks _ _ _).append_inj (maximalRun_blanks _ _ _) h
  obtain ⟨hline, haction⟩ :=
    (maximalRun_line _ _).append_inj (maximalRun_line _ _) hnumber
  have hvalue := congrArg Decimal.value hline
  rw [Decimal.value_digits, Decimal.value_digits] at hvalue
  obtain ⟨rfl, hrest⟩ := Action.listed_append_inj (List.cons.inj (List.cons.inj haction).2).2
  exact ⟨by rw [hvalue], hrest⟩

/-- A statement does not start like a constant. -/
lemma head_listed (a : Statement) (s : List Char) :
    ∀ c ∈ (a.listed.toList ++ s).head?, c ≠ '.' := by
  rintro c hc rfl
  rw [toList_listed, ← List.append_assoc, List.append_assoc, List.head?_append_of_ne_nil _
    (by simp [Decimal.digits_ne_nil])] at hc
  rcases List.mem_append.1 (List.mem_of_head? hc) with hblank | hdigit
  · exact absurd (List.eq_of_mem_replicate hblank) (by decide)
  · exact absurd (Decimal.isDigit_of_mem_digits hdigit) (by decide)

end Statement

/-! ### Constants -/

namespace Value

/-- Equality of values, except that all NaNs count as the same. -/
inductive SameUpToNaN : Value → Value → Prop
  | refl (v : Value) : SameUpToNaN v v
  | nan {x y : Binary64} (hx : x.isNaN = true) (hy : y.isNaN = true) :
      SameUpToNaN (dynamic x) (dynamic y)

lemma SameUpToNaN.listed_eq {v w : Value} (h : SameUpToNaN v w) : v.listed = w.listed := by
  cases h with
  | refl => rfl
  | nan hx hy => rw [listed, listed, Decimal.render_marked_eq_iff.2 (.inr ⟨hx, hy⟩)]

/-- A quoted text ends at its closing quote. -/
lemma quote_append_inj {a b : String} {s t : List Char}
    (h : (Text.Quoted.quote a).toList ++ s = (Text.Quoted.quote b).toList ++ t) :
    a = b ∧ s = t := by
  have hclosing (c : String) (r : List Char) :
      Text.Quoted.closing? ((Text.Quoted.quote c).toList ++ r).tail =
        some (Text.Quoted.escape c.toList, r) := by
    have hfound := Text.Quoted.closing?_escape c.toList r
    simpa [Text.Quoted.quote] using hfound
  have hfound := hclosing a s
  rw [h, hclosing b t] at hfound
  obtain ⟨hescape, hrest⟩ := Prod.mk.inj (Option.some.inj hfound)
  have htext := congrArg Text.Quoted.unescape hescape
  rw [Text.Quoted.unescape_escape, Text.Quoted.unescape_escape, String.toList_inj] at htext
  exact ⟨htext.symm, hrest.symm⟩

lemma newline_notMem_toString (n : ℤ) : '\n' ∉ (toString n).toList := by
  intro h
  exact absurd (Decimal.isDigit_or_eq_of_mem_toString h) (by decide)

/-- A value can be told from the line that it ends. -/
lemma listed_append_inj {v w : Value} {s t : List Char}
    (h : v.listed.toList ++ '\n' :: s = w.listed.toList ++ '\n' :: t) :
    SameUpToNaN v w ∧ s = t := by
  cases v with
  | static m =>
    cases w with
    | static n =>
      obtain ⟨hnumber, hrest⟩ := line_append_inj (newline_notMem_toString _)
        (newline_notMem_toString _) (cancel_front h)
      rw [String.toList_inj, Int.toString_eq_repr, Int.toString_eq_repr, Int.repr_inj,
        Int64.toInt_inj] at hnumber
      exact ⟨hnumber ▸ .refl _, hrest⟩
    | _ => simp [listed] at h
  | dynamic x =>
    cases w with
    | dynamic y =>
      obtain ⟨hnumber, hrest⟩ := line_append_inj (Decimal.newline_notMem_render x)
        (Decimal.newline_notMem_render y) (cancel_front h)
      rcases Decimal.render_marked_eq_iff.1 (String.toList_inj.1 hnumber) with rfl | ⟨hx, hy⟩
      · exact ⟨.refl _, hrest⟩
      · exact ⟨.nan hx hy, hrest⟩
    | _ => simp [listed] at h
  | text a =>
    cases w with
    | text b =>
      obtain ⟨rfl, hrest⟩ := quote_append_inj (cancel_front h)
      exact ⟨.refl _, (List.cons.inj hrest).2⟩
    | _ => simp [listed] at h
  | null =>
    cases w with
    | null => exact ⟨.refl _, (List.cons.inj (List.append_cancel_left h)).2⟩
    | _ => simp [listed] at h

end Value

/-! ### Listings -/

namespace Program

/-- Some lines with their line ends. -/
def linesText (lines : List String) : List Char :=
  lines.flatMap fun line => line.toList ++ ['\n']

@[simp] lemma linesText_nil : linesText [] = [] := rfl

@[simp] lemma linesText_cons (line : String) (more : List String) :
    linesText (line :: more) = line.toList ++ '\n' :: linesText more := by
  simp [linesText]

@[simp] lemma linesText_append (a b : List String) :
    linesText (a ++ b) = linesText a ++ linesText b := by
  simp [linesText]

lemma toList_listingBy (compiler : Compiler) (p : Program) :
    (p.listingBy compiler).toList = linesText (lines compiler p) := by
  simp [listingBy, linesText, List.flatMap_map]

/-- The statements of a program can be told from their lines. -/
lemma statements_inj {a b : List Statement}
    (h : linesText (a.map Statement.listed) = linesText (b.map Statement.listed)) : a = b := by
  induction a generalizing b with
  | nil =>
    cases b with
    | nil => rfl
    | cons y more' => simp at h
  | cons x more ih =>
    cases b with
    | nil => simp at h
    | cons y more' =>
      simp only [List.map_cons, linesText_cons] at h
      obtain ⟨rfl, hmore⟩ := Statement.listed_append_inj h
      rw [ih hmore]

lemma head_statements (a : List Statement) :
    ∀ c ∈ (linesText (a.map Statement.listed)).head?, c ≠ '.' := by
  cases a with
  | nil => simp
  | cons x more =>
    rw [List.map_cons, linesText_cons]
    exact x.head_listed _

/-- The constants of a program can be told from their lines and those of the statements. -/
lemma constants_append_inj {first : ℕ} {vs ws : List Value} {s t : List Char}
    (hs : ∀ c ∈ s.head?, c ≠ '.') (ht : ∀ c ∈ t.head?, c ≠ '.')
    (h : linesText (constantLines first vs) ++ s = linesText (constantLines first ws) ++ t) :
    List.Forall₂ Value.SameUpToNaN vs ws ∧ s = t := by
  induction vs generalizing ws first with
  | nil =>
    cases ws with
    | nil => exact ⟨.nil, h⟩
    | cons w ws =>
      exact absurd rfl (hs '.' (by simp [show s = _ from h, constantLines]))
  | cons v vs ih =>
    cases ws with
    | nil => exact absurd rfl (ht '.' (by simp [show t = _ from h.symm, constantLines]))
    | cons w ws =>
      simp only [constantLines, linesText_cons, String.toList_append, List.append_assoc,
        List.cons_append, List.append_cancel_left_eq] at h
      obtain ⟨hvalue, hmore⟩ := Value.listed_append_inj h
      obtain ⟨hvalues, hrest⟩ := ih hmore
      exact ⟨.cons hvalue hvalues, hrest⟩

lemma constantLines_congr {first : ℕ} {vs ws : List Value}
    (h : List.Forall₂ Value.SameUpToNaN vs ws) :
    constantLines first vs = constantLines first ws := by
  induction h generalizing first with
  | nil => rfl
  | cons hvalue _ ih => rw [constantLines, constantLines, hvalue.listed_eq, ih]

lemma newline_notMem_mode (mode : Mode) : '\n' ∉ mode.name.toList := by
  cases mode <;> decide

lemma mode_name_injective : Function.Injective Mode.name := by
  intro a b h
  cases a <;> cases b <;> first | rfl | exact absurd h (by decide)

lemma newline_notMem_depth (n : ℕ) : '\n' ∉ (toString n).toList := by
  intro h
  exact absurd (isWord_iff.1 (isWord_toString n) '\n' h) (by decide)

/-- The settings of a program can be told from the front of its listing. -/
lemma preamble_append_inj {compiler : Compiler} {a b : Settings} {s t : List Char}
    (h : linesText (preamble compiler a) ++ s = linesText (preamble compiler b) ++ t) :
    a = b ∧ s = t := by
  obtain ⟨mode, depth⟩ := a
  obtain ⟨mode', depth'⟩ := b
  simp only [preamble, List.cons_append, List.nil_append, linesText_cons, String.toList_append,
    List.append_assoc, List.append_cancel_left_eq, List.cons.injEq, true_and] at h
  obtain ⟨hmode, hscope⟩ :=
    line_append_inj (newline_notMem_mode mode) (newline_notMem_mode mode') h
  obtain ⟨hdepth, hreserved⟩ :=
    line_append_inj (newline_notMem_depth depth) (newline_notMem_depth depth')
      (List.append_cancel_left hscope)
  have hnumber := Nat.repr_injective (String.toList_inj.1 hdepth)
  rw [mode_name_injective (String.toList_inj.1 hmode), hnumber]
  exact ⟨rfl, List.append_cancel_left hreserved⟩

/-- A listing determines its program.  Two programs whose listings name the same compiler have the
same listing exactly if their modes, depths and statements are the same, and their constants are the
same except that any two NaNs are listed alike. -/
theorem listingBy_eq_iff (compiler : Compiler) (p q : Program) :
    p.listingBy compiler = q.listingBy compiler ↔
      p.settings = q.settings ∧ List.Forall₂ Value.SameUpToNaN p.constants q.constants ∧
        p.statements = q.statements := by
  constructor
  · intro h
    have htext := congrArg String.toList h
    simp only [toList_listingBy, lines, linesText_append, List.append_assoc] at htext
    obtain ⟨hsettings, hbody⟩ := preamble_append_inj htext
    obtain ⟨hconstants, hstatements⟩ :=
      constants_append_inj (head_statements p.statements) (head_statements q.statements) hbody
    exact ⟨hsettings, hconstants, statements_inj hstatements⟩
  · rintro ⟨hsettings, hconstants, hstatements⟩
    simp only [listingBy, lines, hsettings, constantLines_congr hconstants, hstatements]

end Program

end ColonScript
