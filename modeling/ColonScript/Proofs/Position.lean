import Mathlib
import ColonScript.Text.Position

/-!
# Lines and offsets along a text

A `Position` is moved character by character.  Here its two counters are described by the text
as a whole: the offset grows by the number of bytes (`offset_advance`) and the line by the
number of line ends (`line_advance`).

A line feed right after a return is no line end of its own.  So the line ends of two texts add
up only where the border does not fall between such a pair, and `breaksAfter` counts with that
one bit of knowledge about what stands before.
-/

namespace ColonScript.Text

/-! ### Bytes -/

/-- The number of bytes of a text in UTF-8. -/
def byteSize (cs : List Char) : ℕ :=
  (cs.map Char.utf8Size).sum

@[simp] lemma byteSize_nil : byteSize [] = 0 := rfl

@[simp] lemma byteSize_cons (c : Char) (cs : List Char) :
    byteSize (c :: cs) = c.utf8Size + byteSize cs := rfl

@[simp] lemma byteSize_append (first second : List Char) :
    byteSize (first ++ second) = byteSize first + byteSize second := by
  simp [byteSize]

/-- Only the empty text has no bytes. -/
lemma byteSize_eq_zero_iff {cs : List Char} : byteSize cs = 0 ↔ cs = [] := by
  cases cs with
  | nil => simp
  | cons c more =>
    have hc := c.utf8Size_pos
    simp only [byteSize_cons, reduceCtorEq, iff_false]
    omega

/-- Of two ways to cut a text, the one with fewer bytes in front is cut earlier. -/
lemma eq_append_of_byteSize_le {first second first' second' : List Char}
    (hsame : first ++ second = first' ++ second') (hle : byteSize first ≤ byteSize first') :
    ∃ mid, first' = first ++ mid ∧ second = mid ++ second' := by
  rcases List.append_eq_append_iff.1 hsame with ⟨mid, hfirst, hsecond⟩ | ⟨mid, hfirst, hsecond⟩
  · exact ⟨mid, hfirst, hsecond⟩
  · rw [hfirst, byteSize_append] at hle
    obtain rfl : mid = [] := byteSize_eq_zero_iff.1 (by omega)
    exact ⟨[], by simpa using hfirst.symm, by simpa using hsecond.symm⟩

/-- Walking over a text moves the offset by its bytes. -/
@[simp] lemma Position.offset_advance (p : Position) (text : List Char) :
    (p.advance text).offset = p.offset + byteSize text := by
  induction text generalizing p with
  | nil => simp
  | cons c more ih =>
    rw [Position.advance_cons, ih, byteSize_cons]
    simp only [Position.step]
    omega

/-! ### Line ends -/

/-- The number of line ends in a text that stands after a return or not. -/
def breaksAfter (afterReturn : Bool) : List Char → ℕ
  | [] => 0
  | c :: more => (if Position.isBreak afterReturn c then 1 else 0) + breaksAfter (c == '\r') more

/-- Whether a return stands before what follows a text. -/
def endsInReturn (afterReturn : Bool) : List Char → Bool
  | [] => afterReturn
  | c :: more => endsInReturn (c == '\r') more

/-- Walking over a text moves the line by its line ends. -/
lemma Position.line_advance_eq (p : Position) (text : List Char) :
    (p.advance text).line = p.line + breaksAfter p.afterReturn text := by
  induction text generalizing p with
  | nil => simp [breaksAfter]
  | cons c more ih =>
    rw [Position.advance_cons, ih]
    simp only [Position.step, breaksAfter]
    split_ifs <;> omega

/-- Walking over a text remembers whether it ended with a return. -/
lemma Position.afterReturn_advance (p : Position) (text : List Char) :
    (p.advance text).afterReturn = endsInReturn p.afterReturn text := by
  induction text generalizing p with
  | nil => rfl
  | cons c more ih => rw [Position.advance_cons, ih]; rfl

/-- The line ends of a text are counted as if nothing stood before it. -/
lemma lineBreaks_eq (text : List Char) : lineBreaks text = breaksAfter false text := by
  rw [lineBreaks, Position.line_advance_eq]
  simp

/-- A return before a text matters only if the text starts with a line feed. -/
lemma breaksAfter_eq_lineBreaks {afterReturn : Bool} {text : List Char}
    (h : afterReturn = false ∨ text.head? ≠ some '\n') :
    breaksAfter afterReturn text = lineBreaks text := by
  rw [lineBreaks_eq]
  cases text with
  | nil => rfl
  | cons c more =>
    have hsame : Position.isBreak afterReturn c = Position.isBreak false c := by
      rcases h with rfl | hhead
      · rfl
      · have hc : (c == '\n') = false := by simpa using hhead
        simp [Position.isBreak, hc]
    rw [breaksAfter, breaksAfter, hsame]

/-- Walking over a text that does not complete a pair of return and line feed moves the line by
the line ends of the text alone. -/
lemma Position.line_advance {p : Position} {text : List Char}
    (h : p.afterReturn = false ∨ text.head? ≠ some '\n') :
    (p.advance text).line = p.line + lineBreaks text := by
  rw [Position.line_advance_eq, breaksAfter_eq_lineBreaks h]

/-- Lines never go back. -/
lemma Position.line_le_advance (p : Position) (text : List Char) :
    p.line ≤ (p.advance text).line := by
  rw [Position.line_advance_eq]
  omega

/-- The line ends of two texts are counted one after the other. -/
lemma breaksAfter_append (afterReturn : Bool) (first second : List Char) :
    breaksAfter afterReturn (first ++ second) =
      breaksAfter afterReturn first + breaksAfter (endsInReturn afterReturn first) second := by
  induction first generalizing afterReturn with
  | nil => simp [breaksAfter, endsInReturn]
  | cons c more ih =>
    simp only [List.cons_append, breaksAfter, endsInReturn, ih]
    omega

/-- The line ends of two texts add up unless a pair of return and line feed is cut. -/
lemma lineBreaks_append {first second : List Char}
    (h : endsInReturn false first = false ∨ second.head? ≠ some '\n') :
    lineBreaks (first ++ second) = lineBreaks first + lineBreaks second := by
  rw [lineBreaks_eq, breaksAfter_append, breaksAfter_eq_lineBreaks h, lineBreaks_eq first]

/-- A character that neither is a return nor a line feed. -/
def isInline (c : Char) : Bool :=
  c != '\n' && c != '\r'

/-- A text without returns and line feeds has no line ends. -/
lemma lineBreaks_eq_zero {text : List Char} (h : ∀ c ∈ text, isInline c = true) :
    lineBreaks text = 0 := by
  rw [lineBreaks_eq]
  generalize false = afterReturn
  induction text generalizing afterReturn with
  | nil => rfl
  | cons c more ih =>
    obtain ⟨hc, hmore⟩ := List.forall_mem_cons.1 h
    have hfeed : c ≠ '\n' ∧ c ≠ '\r' := by simpa [isInline] using hc
    simp [breaksAfter, Position.isBreak, hfeed.1, hfeed.2, ih hmore]

/-- A text without returns does not end with one. -/
lemma endsInReturn_eq_false {text : List Char} (h : ∀ c ∈ text, isInline c = true) :
    endsInReturn false text = false := by
  induction text with
  | nil => rfl
  | cons c more ih =>
    obtain ⟨hc, hmore⟩ := List.forall_mem_cons.1 h
    have hreturn : (c == '\r') = false := by
      simp only [isInline, Bool.and_eq_true, bne_iff_ne] at hc
      exact beq_eq_false_iff_ne.2 hc.2
    rw [endsInReturn, hreturn, ih hmore]

/-- The second of two texts is walked over after the first. -/
lemma endsInReturn_append (afterReturn : Bool) (first second : List Char) :
    endsInReturn afterReturn (first ++ second) =
      endsInReturn (endsInReturn afterReturn first) second := by
  induction first generalizing afterReturn with
  | nil => rfl
  | cons c more ih => rw [List.cons_append, endsInReturn, ih, endsInReturn]

/-- What stands before a text on its line adds no line ends to it. -/
lemma lineBreaks_inline_append {front : List Char} (h : ∀ c ∈ front, isInline c = true)
    (text : List Char) : lineBreaks (front ++ text) = lineBreaks text := by
  rw [lineBreaks_append (.inl (endsInReturn_eq_false h)), lineBreaks_eq_zero h, Nat.zero_add]

/-- Each line feed of a row ends a line. -/
lemma lineBreaks_replicate (n : ℕ) : lineBreaks (List.replicate n '\n') = n := by
  rw [lineBreaks_eq]
  induction n with
  | zero => rfl
  | succ n ih =>
    have hfeed : ('\n' == '\r') = false := by decide
    rw [List.replicate_succ, breaksAfter, hfeed, ih, if_pos (by decide), Nat.add_comm]

end ColonScript.Text
