import ColonScript.Proofs.DecimalText
import ColonScript.Proofs.ErrorPlaces

/-!
# Integers in texts

An integer of 64 bits is found in a text in two ways.  A text that is viewed as an integer is freed
of its blanks and then read with a sign, and a literal is read as a run of digits, of any length.
Here both are compared with what an integer is written as and with what digits stand for.

A numeral is read as a number of 64 bits exactly if it stands for this number
(`Decimal.int64?_eq_some_iff`), and that settles both limits at once: the least number needs no
care, although its magnitude alone does not fit, and digits are out of range from `2 ^ 63` on,
however many zeros stand before them.
-/

namespace ColonScript

/-! ### Blanks around a text -/

namespace Text

/-- Blanks before and after a text do not matter for what is left of it. -/
lemma trim_append_append {before after : List Char} (hbefore : ∀ c ∈ before, isBlank c = true)
    (hafter : ∀ c ∈ after, isBlank c = true) (cs : List Char) :
    trim (before ++ cs ++ after) = trim cs := by
  have hback : ∀ c ∈ after.reverse, isBlank c = true := by simpa using hafter
  rw [trim, trim, List.append_assoc, List.dropWhile_append_of_pos hbefore, List.dropWhile_append]
  split
  case isTrue hempty =>
    -- a text of blanks has nothing that could keep the blanks after it
    rw [List.isEmpty_iff.1 hempty, List.dropWhile_eq_nil_iff.2 hafter]
  case isFalse => rw [List.reverse_append, List.dropWhile_append_of_pos hback]

/-- A text without blanks is left as it is. -/
lemma trim_of_forall_not_isBlank {cs : List Char} (h : ∀ c ∈ cs, isBlank c = false) :
    trim cs = cs := by
  have hkept {ds : List Char} (hds : ∀ c ∈ ds, isBlank c = false) : ds.dropWhile isBlank = ds :=
    List.dropWhile_eq_self_iff.2 fun hlength => by simp [hds]
  rw [trim, hkept h, hkept (by simpa using h), List.reverse_reverse]

lemma isBlank_eq_false_of_isDigit {c : Char} (hc : c.isDigit = true) : isBlank c = false := by
  have hrange : 48 ≤ c.toNat ∧ c.toNat ≤ 57 := by
    simpa [Char.isDigit, UInt32.le_iff_toNat_le] using hc
  simp only [isBlank, inRanges, whiteSpace, List.any_cons, List.any_nil, Bool.or_false,
    Bool.or_eq_false_iff, Bool.and_eq_false_iff, decide_eq_false_iff_not]
  omega

end Text

/-! ### Numerals of 64 bits -/

namespace Decimal

/-- The number that has the given digits, each counted by its place. -/
def byPlaces (ds : List Char) : ℕ :=
  Nat.ofDigits 10 (ds.reverse.map fun c => c.toNat - '0'.toNat)

/-- Digits are read as the number that has them. -/
lemma value_eq_byPlaces (ds : List Char) : value ds = byPlaces ds := by
  induction ds using List.reverseRecOn with
  | nil => rfl
  | append_singleton ds c ih =>
    have hlast : value [c] = c.toNat - '0'.toNat := by simp [value, Nat.ofDigitChars]
    rw [value_append, hlast, ih, List.length_singleton, pow_one, byPlaces, byPlaces,
      List.reverse_concat, List.map_cons, Nat.ofDigits_cons]
    omega

/-- A numeral is read as a number of 64 bits exactly if it stands for this number. -/
lemma int64?_eq_some_iff {cs : List Char} {n : Int64} :
    int64? cs = some n ↔ integer? cs = some n.toInt := by
  constructor
  · intro h
    have hmin : Int64.minValue.toInt = -2 ^ 63 := by decide
    have hmax : Int64.maxValue.toInt = 2 ^ 63 - 1 := by decide
    obtain ⟨k, hread, rfl⟩ := Option.map_eq_some_iff.1 h
    obtain ⟨hinteger, hfits⟩ := Option.filter_eq_some_iff.1 hread
    rw [Bool.and_eq_true, decide_eq_true_eq, decide_eq_true_eq, hmin, hmax] at hfits
    rw [hinteger, Int64.toInt_ofInt_of_le hfits.1 (by omega)]
  · intro h
    have hlow := decide_eq_true n.minValue_le_toInt
    have hhigh := decide_eq_true n.toInt_le
    simp only [int64?, h, Option.filter_some, hlow, hhigh, Bool.and_true, if_true, Option.map_some,
      Int64.ofInt_toInt]

/-- A number of 64 bits is read as it is written, the least one included. -/
lemma int64?_toString (n : Int64) : int64? (toString n.toInt).toList = some n :=
  int64?_eq_some_iff.2 (integer?_toString n.toInt)

/-- Digits of a number below `2 ^ 63` are read as this number. -/
lemma exists_int64?_of_lt {ds : List Char} (hne : ds ≠ []) (hall : ∀ c ∈ ds, c.isDigit = true)
    (hlt : byPlaces ds < 2 ^ 63) :
    ∃ n : Int64, n.toInt = byPlaces ds ∧ int64? ds = some n := by
  have hvalue : (Int64.ofNat (byPlaces ds)).toInt = byPlaces ds := Int64.toInt_ofNat_of_lt hlt
  refine ⟨Int64.ofNat (byPlaces ds), hvalue, ?_⟩
  rw [int64?_eq_some_iff, hvalue, integer?_of_isDigit hne hall, value_eq_byPlaces]

end Decimal

/-! ### Values -/

namespace Value

/-- An integer is found again in its text, also between blanks. -/
lemma toInt_text_display (n : Int64) {before after : String}
    (hbefore : ∀ c ∈ before.toList, Text.isBlank c = true)
    (hafter : ∀ c ∈ after.toList, Text.isBlank c = true) :
    (text (before ++ (static n).display ++ after)).toInt = n := by
  have hdigits : ∀ c ∈ (toString n.toInt).toList, Text.isBlank c = false := by
    intro c hc
    rcases Decimal.isDigit_or_eq_of_mem_toString hc with hdigit | rfl
    · exact Text.isBlank_eq_false_of_isDigit hdigit
    · decide
  rw [toInt, display, String.toList_append, String.toList_append,
    Text.trim_append_append hbefore hafter, Text.trim_of_forall_not_isBlank hdigits,
    Decimal.int64?_toString, Option.getD_some]

/-- Every integer of 64 bits is what its text is viewed as, whatever blanks stand around it.  A
literal of digits is the integer that has these digits if there are any and it is below `2 ^ 63`;
otherwise it is refused as out of range. -/
theorem integers_survive_text :
    (∀ (n : Int64) (before after : String), (∀ c ∈ before.toList, Text.isBlank c = true) →
      (∀ c ∈ after.toList, Text.isBlank c = true) →
        (text (before ++ (static n).display ++ after)).toInt = n) ∧
      ∀ (w : String) (line : ℕ), (∀ c ∈ w.toList, c.isDigit = true) →
        (w ≠ "" → Decimal.byPlaces w.toList < 2 ^ 63 →
          ∃ n : Int64, n.toInt = Decimal.byPlaces w.toList ∧
            ofArgument ⟨.static, w⟩ line = .ok (static n)) ∧
        (w = "" ∨ 2 ^ 63 ≤ Decimal.byPlaces w.toList →
          ofArgument ⟨.static, w⟩ line = .error ⟨.integerRange w, line⟩) := by
  refine ⟨fun n before after => toInt_text_display n, ?_⟩
  intro w line hall
  constructor
  · intro hne hlt
    have hdigits : w.toList ≠ [] := by simpa using hne
    obtain ⟨n, hn, hread⟩ := Decimal.exists_int64?_of_lt hdigits hall hlt
    exact ⟨n, hn, by simp [ofArgument, hread]⟩
  · intro hrange
    have hread : Decimal.int64? w.toList = none := by
      rcases hrange with rfl | hle
      · decide
      · have hdigits : w.toList ≠ [] := by
          intro hnil
          rw [hnil] at hle
          exact absurd hle (by decide)
        rwa [Decimal.int64?_eq_none_iff hdigits hall, Decimal.value_eq_byPlaces]
    simp [ofArgument, hread]

/-- The least integer between blanks of several kinds, and the two literals at the limit, with zeros
before them. -/
theorem integers_survive_text_at_limits :
    (static Int64.minValue).display = "-9223372036854775808" ∧
      (text ("\u3000\t" ++ "-9223372036854775808" ++ "\u00a0\n")).toInt = Int64.minValue ∧
      ofArgument ⟨.static, "0009223372036854775807"⟩ 1 = .ok (static Int64.maxValue) ∧
      ofArgument ⟨.static, "0009223372036854775808"⟩ 3 =
        .error ⟨.integerRange "0009223372036854775808", 3⟩ := by
  obtain ⟨htext, hliteral⟩ := integers_survive_text
  have hleast : (static Int64.minValue).display = "-9223372036854775808" := by decide
  have hview := htext Int64.minValue "\u3000\t" "\u00a0\n"
    (by simp [Text.isBlank, Text.inRanges, Text.whiteSpace])
    (by simp [Text.isBlank, Text.inRanges, Text.whiteSpace])
  rw [hleast] at hview
  obtain ⟨n, hn, hread⟩ :=
    (hliteral "0009223372036854775807" 1 (by simp)).1 (by decide) (by decide +kernel)
  obtain rfl : n = Int64.maxValue := Int64.toInt_inj.1 (hn.trans (by decide +kernel))
  have hrefused :=
    (hliteral "0009223372036854775808" 3 (by simp)).2 (.inr (by decide +kernel))
  exact ⟨hleast, hview, hread, hrefused⟩

end Value

end ColonScript
