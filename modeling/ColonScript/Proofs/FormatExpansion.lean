import Mathlib
import ColonScript.Proofs.Output

/-!
# The expansion of a format

A format string is divided from left to right into plain characters, groups of a percent sign
and the character after it, and possibly a lone percent sign at the end.  `Format.IsSplit` states
this division without an order of reading: the parts spell the format, no plain character is a
percent sign, and a lone percent sign is the last part.  There is exactly one such division
(`Format.isSplit_iff`).

`Format.expansion` replaces every part by its place: the directive that has `i` directives before
it is replaced by the value number `i`.  Printing a format writes its expansion, up to the first
directive without a value (`Format.print_expansion`).
-/

namespace ColonScript

/-! ### Parts of a format -/

/-- A part of a format string. -/
inductive Format.Part where
  /-- A character other than a percent sign. -/
  | plain (c : Char)
  /-- A percent sign and the character after it. -/
  | group (c : Char)
  /-- A percent sign at the very end. -/
  | lone
deriving DecidableEq, Repr

namespace Format

namespace Part

/-- The spelling of a part. -/
def chars : Part → List Char
  | plain c => [c]
  | group c => ['%', c]
  | lone => ['%']

/-- Whether a part stands for a value. -/
def isDirective : Part → Bool
  | group c => c = 's' ∨ c = 'd' ∨ c = 'f'
  | plain _ | lone => false

/-- What is written for a part.  A directive writes the given value as a text, as an integer or
as a number with six places; two percent signs are one; everything else is copied. -/
def render (v : Value) : Part → String
  | plain c => String.singleton c
  | group 's' => v.display
  | group 'd' => toString v.toInt.toInt
  | group 'f' => Decimal.fixed 6 v.toNumber
  | group '%' => "%"
  | group c => String.ofList ['%', c]
  | lone => "%"

end Part

/-- The division of a format string into its parts from left to right. -/
structure IsSplit (format : List Char) (parts : List Part) : Prop where
  spelled : parts.flatMap Part.chars = format
  plain_ne : ∀ c, .plain c ∈ parts → c ≠ '%'
  lone_last : .lone ∉ parts.dropLast

/-- The number of parts that stand for a value. -/
def arity (parts : List Part) : ℕ :=
  parts.countP Part.isDirective

/-- What is written for some parts: each directive writes the value whose number is the number of
directives before it. -/
def expansion (parts : List Part) (values : List Value) : String :=
  String.join (parts.mapIdx fun i part => part.render (values.getD (arity (parts.take i)) .null))

/-! ### There is one division -/

/-- The parts of a format string. -/
def split : List Char → List Part
  | [] => []
  | ['%'] => [.lone]
  | '%' :: c :: rest => .group c :: split rest
  | c :: rest => .plain c :: split rest

namespace IsSplit

variable {format : List Char} {part : Part} {parts : List Part}

/-- The parts after the first one divide the rest of the format. -/
lemma tail (h : IsSplit (part.chars ++ format) (part :: parts)) : IsSplit format parts := by
  obtain ⟨hspelled, hplain, hlone⟩ := h
  rw [List.flatMap_cons] at hspelled
  refine ⟨List.append_cancel_left hspelled, ?_, ?_⟩
  · intro c hc
    exact hplain c (List.mem_cons_of_mem _ hc)
  · intro hmem
    have hne : parts ≠ [] := by
      rintro rfl
      simp at hmem
    rw [List.dropLast_cons_of_ne_nil hne] at hlone
    exact hlone (List.mem_cons_of_mem _ hmem)

/-- A part that is not a lone percent sign can be put before the others. -/
lemma cons (h : IsSplit format parts) (hplain : ∀ c, part = .plain c → c ≠ '%')
    (hlone : part ≠ .lone) : IsSplit (part.chars ++ format) (part :: parts) := by
  refine ⟨?_, ?_, ?_⟩
  · rw [List.flatMap_cons, h.spelled]
  · intro c hc
    rcases List.mem_cons.1 hc with hfirst | hlater
    · exact hplain c hfirst.symm
    · exact h.plain_ne c hlater
  · intro hmem
    by_cases hne : parts = []
    · simp [hne] at hmem
    · rw [List.dropLast_cons_of_ne_nil hne] at hmem
      rcases List.mem_cons.1 hmem with hfirst | hlater
      · exact hlone hfirst.symm
      · exact h.lone_last hlater

end IsSplit

/-- A character other than a percent sign is a part of its own. -/
lemma split_plain {c : Char} (hc : c ≠ '%') (rest : List Char) :
    split (c :: rest) = .plain c :: split rest :=
  split.eq_4 c rest (fun hlone _ => hc hlone) fun _ _ hgroup _ => hc hgroup

/-- Reading a format string from left to right divides it. -/
lemma isSplit_split (format : List Char) : IsSplit format (split format) := by
  fun_induction split format with
  | case1 => exact ⟨rfl, by simp, by simp⟩
  | case2 => exact ⟨rfl, by simp, by simp⟩
  | case3 c rest ih =>
    have hgroup : IsSplit ((Part.group c).chars ++ rest) _ := ih.cons (by simp) (by simp)
    exact hgroup
  | case4 c rest hlone hgroup ih =>
    have hc : c ≠ '%' := by
      rintro rfl
      cases rest with
      | nil => exact hlone rfl rfl
      | cons d tail => exact hgroup d tail rfl rfl
    have hplain : IsSplit ((Part.plain c).chars ++ rest) _ := ih.cons (by simpa using hc) (by simp)
    exact hplain

/-- Every division is found by reading from left to right. -/
lemma split_of_isSplit {format : List Char} {parts : List Part} (h : IsSplit format parts) :
    split format = parts := by
  induction parts generalizing format with
  | nil =>
    obtain rfl := h.spelled
    rfl
  | cons part rest ih =>
    obtain rfl := h.spelled
    have htail : IsSplit (rest.flatMap Part.chars) rest := h.tail
    have hrest := ih htail
    cases part with
    | plain c =>
      have hc : c ≠ '%' := h.plain_ne c List.mem_cons_self
      have hstep := split_plain hc (rest.flatMap Part.chars)
      rwa [hrest] at hstep
    | group c => exact congrArg (Part.group c :: ·) hrest
    | lone =>
      -- nothing comes after a lone percent sign
      obtain rfl : rest = [] := by
        by_contra hne
        have hlone := h.lone_last
        rw [List.dropLast_cons_of_ne_nil hne] at hlone
        exact hlone List.mem_cons_self
      rfl

/-- A format string has one division. -/
lemma isSplit_iff {format : List Char} {parts : List Part} :
    IsSplit format parts ↔ parts = split format := by
  constructor
  · intro h
    exact (split_of_isSplit h).symm
  · rintro rfl
    exact isSplit_split format

/-! ### Parts as segments -/

namespace Part

/-- The segment of a template that a part becomes. -/
def segment : Part → Segment
  | plain c => .literal (String.singleton c)
  | group c => Template.group c
  | lone => .literal "%"

variable {part : Part}

/-- A part that is no directive is written as it is, whatever the value. -/
lemma segment_eq_literal (h : part.isDirective = false) (v : Value) :
    part.segment = .literal (part.render v) := by
  cases part with
  | plain c => rfl
  | lone => rfl
  | group c =>
    have hother : c ≠ 's' ∧ c ≠ 'd' ∧ c ≠ 'f' := by simpa [isDirective] using h
    obtain ⟨hs, hd, hf⟩ := hother
    have hnone : Directive.ofChar? c = none := Directive.ofChar?.eq_4 c hs hd hf
    by_cases hpercent : c = '%'
    · subst hpercent
      rfl
    · have hrender : (group c).render v = String.ofList ['%', c] :=
        render.eq_6 v c hs hd hf hpercent
      rw [hrender, segment, Template.group, hnone]
      simp [hpercent]

/-- A directive writes the value. -/
lemma exists_segment_eq_value (h : part.isDirective = true) :
    ∃ d, part.segment = .value d ∧ ∀ v, d.show v = part.render v := by
  cases part with
  | plain c => simp [isDirective] at h
  | lone => simp [isDirective] at h
  | group c =>
    have hletter : c = 's' ∨ c = 'd' ∨ c = 'f' := by simpa [isDirective] using h
    rcases hletter with rfl | rfl | rfl
    · exact ⟨.text, rfl, fun _ => rfl⟩
    · exact ⟨.integer, rfl, fun _ => rfl⟩
    · exact ⟨.number, rfl, fun _ => rfl⟩

/-- Only directives depend on a value. -/
lemma render_congr (h : part.isDirective = false) (v w : Value) : part.render v = part.render w :=
  Segment.literal.inj ((segment_eq_literal h v).symm.trans (segment_eq_literal h w))

end Part

/-- The template of a format has one segment for each part. -/
lemma parse_eq_map_segment (format : List Char) :
    Template.parse format = (split format).map Part.segment := by
  fun_induction split format with
  | case1 => rfl
  | case2 => rfl
  | case3 c rest ih => rw [Template.parse, ih]; rfl
  | case4 c rest hlone hgroup ih => rw [Template.parse.eq_4 c rest hlone hgroup, ih]; rfl

/-! ### Expansions step by step -/

section Expansion

variable {part : Part} {parts : List Part}

lemma arity_cons (part : Part) (parts : List Part) :
    arity (part :: parts) = arity parts + if part.isDirective then 1 else 0 :=
  List.countP_cons

/-- A part that is no directive is written without a value. -/
lemma expansion_cons (h : part.isDirective = false) (v : Value) (values : List Value) :
    expansion (part :: parts) values = part.render v ++ expansion parts values := by
  simp only [expansion, List.mapIdx_cons, String.join_cons, List.take_succ_cons, arity_cons, h]
  rw [part.render_congr h _ v]
  rfl

/-- A directive writes the first value, and what follows it the others. -/
lemma expansion_cons_directive (h : part.isDirective = true) (v : Value) (values : List Value) :
    expansion (part :: parts) (v :: values) = part.render v ++ expansion parts values := by
  simp only [expansion, List.mapIdx_cons, String.join_cons, List.take_succ_cons, arity_cons, h]
  rfl

/-- Values that no directive asks for are ignored. -/
lemma expansion_append {values : List Value} (h : arity parts ≤ values.length)
    (surplus : List Value) : expansion parts (values ++ surplus) = expansion parts values := by
  induction parts generalizing values with
  | nil => rfl
  | cons part rest ih =>
    rw [arity_cons] at h
    by_cases hpart : part.isDirective = true
    · rw [if_pos hpart] at h
      cases values with
      | nil => simp at h
      | cons v more =>
        rw [List.cons_append, expansion_cons_directive hpart, expansion_cons_directive hpart,
          ih (Nat.le_of_succ_le_succ h)]
    · rw [if_neg hpart] at h
      rw [Bool.not_eq_true] at hpart
      rw [expansion_cons hpart .null, expansion_cons hpart .null, ih h]

/-- Where there are more directives than values, one directive comes right after as many others as
there are values. -/
lemma exists_missing {n : ℕ} (h : n < arity parts) :
    ∃ front d back, parts = front ++ d :: back ∧ d.isDirective = true ∧ arity front = n := by
  induction parts generalizing n with
  | nil => simp [arity] at h
  | cons part rest ih =>
    rw [arity_cons] at h
    by_cases hpart : part.isDirective = true
    · cases n with
      | zero => exact ⟨[], part, rest, rfl, hpart, rfl⟩
      | succ n =>
        rw [if_pos hpart] at h
        obtain ⟨front, d, back, rfl, hd, hfront⟩ := ih (Nat.lt_of_succ_lt_succ h)
        exact ⟨part :: front, d, back, rfl, hd, by rw [arity_cons, hfront, if_pos hpart]⟩
    · rw [if_neg hpart] at h
      obtain ⟨front, d, back, rfl, hd, hfront⟩ := ih h
      refine ⟨part :: front, d, back, rfl, hd, ?_⟩
      rw [arity_cons, hfront, if_neg hpart, Nat.add_zero]

end Expansion

/-! ### Printing -/

/-- Parts whose directives all have values are written as their expansion, and printing goes on with
the values that are left. -/
lemma printFrom_append {front : List Part} {values : List Value}
    (h : arity front ≤ values.length) (taken : ℕ) (written : String) (rest : Template) :
    Template.printFrom taken ⟨written, none⟩ (front.map Part.segment ++ rest) values =
      Template.printFrom (taken + arity front) ⟨written ++ expansion front values, none⟩ rest
        (values.drop (arity front)) := by
  induction front generalizing taken written values with
  | nil =>
    have hempty : written ++ expansion [] values = written := String.append_empty
    rw [hempty]
    rfl
  | cons part more ih =>
    rw [arity_cons] at h
    rw [List.map_cons, List.cons_append]
    by_cases hpart : part.isDirective = true
    · rw [if_pos hpart] at h
      obtain ⟨d, hsegment, hshow⟩ := part.exists_segment_eq_value hpart
      cases values with
      | nil => simp at h
      | cons v others =>
        have hothers := ih (Nat.le_of_succ_le_succ h) (taken + 1) (written ++ part.render v)
        rw [hsegment, Template.printFrom_value, hshow, expansion_cons_directive hpart,
          ← String.append_assoc, arity_cons, if_pos hpart, List.drop_succ_cons]
        rw [Nat.add_assoc, Nat.add_comm 1] at hothers
        exact hothers
    · rw [if_neg hpart] at h
      rw [Bool.not_eq_true] at hpart
      have hmore := ih h taken (written ++ part.render .null)
      rw [part.segment_eq_literal hpart .null, Template.printFrom_literal,
        expansion_cons hpart .null, ← String.append_assoc, arity_cons, hpart]
      exact hmore

/-! ### Doubled percent signs -/

/-- A text with every percent sign written twice. -/
def doubled (text : List Char) : List Char :=
  text.flatMap fun c => if c = '%' then ['%', '%'] else [c]

/-- The part that stands for a character in a text with doubled percent signs. -/
def doubledPart (c : Char) : Part :=
  if c = '%' then .group '%' else .plain c

/-- In a text with doubled percent signs every character has a part of its own. -/
lemma split_doubled (text : List Char) : split (doubled text) = text.map doubledPart := by
  induction text with
  | nil => rfl
  | cons c rest ih =>
    rw [doubled, List.flatMap_cons, ← doubled, List.map_cons, doubledPart]
    by_cases hc : c = '%'
    · rw [if_pos hc, if_pos hc]
      exact congrArg (Part.group '%' :: ·) ih
    · rw [if_neg hc, if_neg hc, ← ih]
      exact split_plain hc (doubled rest)

/-- Such a part is no directive. -/
lemma isDirective_doubledPart (c : Char) : (doubledPart c).isDirective = false := by
  unfold doubledPart
  split_ifs <;> rfl

/-- Such a part is written as its character. -/
lemma render_doubledPart (c : Char) (v : Value) :
    (doubledPart c).render v = String.singleton c := by
  unfold doubledPart
  split_ifs with hc
  · subst hc
    rfl
  · rfl

/-- A text with doubled percent signs asks for no value. -/
lemma arity_doubled (text : List Char) : arity (split (doubled text)) = 0 := by
  rw [split_doubled, arity, List.countP_eq_zero]
  intro part hpart
  obtain ⟨c, -, rfl⟩ := List.mem_map.1 hpart
  simp [isDirective_doubledPart]

/-- A text with doubled percent signs is written as the text. -/
lemma expansion_doubled (text : List Char) (values : List Value) :
    expansion (split (doubled text)) values = String.ofList text := by
  rw [split_doubled]
  induction text with
  | nil => rfl
  | cons c rest ih =>
    rw [List.map_cons, expansion_cons (isDirective_doubledPart c) .null, render_doubledPart, ih,
      String.singleton_eq_ofList, ← String.ofList_append]
    rfl

/-! ### Formats as a whole -/

open Template (print)

/-- A format whose directives all have values is written as its expansion. -/
lemma print_of_le {format : String} {values : List Value}
    (h : arity (split format.toList) ≤ values.length) (written : String) :
    print ⟨written, none⟩ format values =
      .ok ⟨written ++ expansion (split format.toList) values, none⟩ := by
  have hprinted := printFrom_append h 0 written []
  rwa [List.append_nil, ← parse_eq_map_segment] at hprinted

/-- A format that lacks a value for a directive is written up to that directive. -/
lemma print_of_missing {format : String} {values : List Value} {front back : List Part} {d : Part}
    (hsplit : split format.toList = front ++ d :: back) (hd : d.isDirective = true)
    (hfront : arity front = values.length) (written : String) :
    print ⟨written, none⟩ format values =
      .error (.missingValue (values.length + 1), ⟨written ++ expansion front values, none⟩) := by
  obtain ⟨directive, hsegment, -⟩ := d.exists_segment_eq_value hd
  have hprinted := printFrom_append hfront.le 0 written ((d :: back).map Part.segment)
  rw [← List.map_append, ← hsplit, ← parse_eq_map_segment, List.map_cons, hsegment, hfront,
    List.drop_length, Nat.zero_add] at hprinted
  exact hprinted

/-- Format expansion.  A format string has one division into parts.  Printing it fails exactly if
it has more directives than there are values; then the fault names the first value that is
missing, and the format has been written up to the directive that asks for it.  Otherwise the
whole expansion is written, and further values change nothing.  A text whose percent signs are
doubled is printed as it is and asks for no value. -/
theorem print_expansion (format written : String) (values : List Value) :
    ∃ parts, (∀ others, IsSplit format.toList others ↔ others = parts) ∧
      ((∃ failed, print ⟨written, none⟩ format values = .error failed) ↔
        values.length < arity parts) ∧
      (values.length < arity parts → ∃ front d back, parts = front ++ d :: back ∧
        d.isDirective = true ∧ arity front = values.length ∧
        print ⟨written, none⟩ format values =
          .error (.missingValue (values.length + 1), ⟨written ++ expansion front values, none⟩)) ∧
      (arity parts ≤ values.length →
        print ⟨written, none⟩ format values = .ok ⟨written ++ expansion parts values, none⟩ ∧
        ∀ surplus, print ⟨written, none⟩ format (values ++ surplus) =
          print ⟨written, none⟩ format values) ∧
      print ⟨written, none⟩ (String.ofList (doubled format.toList)) values =
        .ok ⟨written ++ format, none⟩ ∧
      ∀ others, IsSplit (doubled format.toList) others → arity others = 0 := by
  have hmissing (h : values.length < arity (split format.toList)) :
      ∃ front d back, split format.toList = front ++ d :: back ∧ d.isDirective = true ∧
        arity front = values.length ∧ print ⟨written, none⟩ format values =
          .error (.missingValue (values.length + 1),
            ⟨written ++ expansion front values, none⟩) := by
    obtain ⟨front, d, back, hsplit, hd, hfront⟩ := exists_missing h
    exact ⟨front, d, back, hsplit, hd, hfront, print_of_missing hsplit hd hfront written⟩
  refine ⟨split format.toList, fun others => isSplit_iff, ⟨?_, ?_⟩, hmissing, ?_, ?_, ?_⟩
  · rintro ⟨failed, hfailed⟩
    by_contra hle
    rw [print_of_le (Nat.le_of_not_lt hle)] at hfailed
    simp at hfailed
  · intro h
    obtain ⟨front, d, back, -, -, -, hprint⟩ := hmissing h
    exact ⟨_, hprint⟩
  · intro h
    refine ⟨print_of_le h written, fun surplus => ?_⟩
    have hlonger : arity (split format.toList) ≤ (values ++ surplus).length := by
      rw [List.length_append]
      omega
    rw [print_of_le h, print_of_le hlonger, expansion_append h]
  · have hnone : arity (split (String.ofList (doubled format.toList)).toList) ≤ values.length := by
      rw [String.toList_ofList, arity_doubled]
      omega
    rw [print_of_le hnone, String.toList_ofList, expansion_doubled, String.ofList_toList]
  · intro others hothers
    rw [isSplit_iff.1 hothers, arity_doubled]

end Format

end ColonScript
