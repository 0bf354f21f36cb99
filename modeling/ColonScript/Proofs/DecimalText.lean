import ColonScript.Proofs.Grammar
import ColonScript.Proofs.RoundingIntervals
import ColonScript.Proofs.ScriptCalls

/-!
# Numbers by their texts

A finite number is written by its shortest decimal, with a point and in some cases with an exponent.
`Numeral` relates such a text to the rational number that it stands for, and a text stands for one
number only (`Numeral.unique`).  Since the shortest decimal lies in an interval that belongs to one
number, the text determines this number.  With the sign and the words for the infinities it follows
that two numbers have the same text only if they are equal or both of them are NaNs
(`render_marked_eq_iff`).
-/

namespace ColonScript.Decimal

open Grammar (MaximalRun)

/-! ### Numerals -/

/-- Digits that may have a point among them, and the number that they stand for. -/
inductive Mantissa : List Char → ℚ → Prop
  | whole {ds : List Char} (hds : ∀ c ∈ ds, c.isDigit = true) : Mantissa ds (value ds)
  | pointed {ds fs : List Char} (hds : ∀ c ∈ ds, c.isDigit = true)
      (hfs : ∀ c ∈ fs, c.isDigit = true) :
      Mantissa (ds ++ '.' :: fs) (value (ds ++ fs) / 10 ^ fs.length)

/-- A text with or without an exponent, and the number that it stands for. -/
inductive Numeral : List Char → ℚ → Prop
  | plain {cs : List Char} {q : ℚ} (h : Mantissa cs q) : Numeral cs q
  | scaled {cs : List Char} {q : ℚ} (h : Mantissa cs q) (exponent : ℤ) :
      Numeral (cs ++ 'e' :: (toString exponent).toList) (q * 10 ^ exponent)

/-- Reads digits with a point. -/
def readPointed (cs : List Char) : ℚ :=
  let whole := cs.takeWhile (· != '.')
  let fraction := (cs.dropWhile (· != '.')).tail
  value (whole ++ fraction) / 10 ^ fraction.length

/-- Reads digits with a point and an exponent. -/
def readScaled (cs : List Char) : ℚ :=
  readPointed (cs.takeWhile (· != 'e')) * 10 ^ (integer? (cs.dropWhile (· != 'e')).tail).getD 0

lemma toList_toString (n : ℤ) :
    (toString n).toList = if 0 ≤ n then digits n.toNat else '-' :: digits (-n).toNat := by
  rw [Int.toString_eq_repr, Int.repr_eq_if]
  split <;> simp [Nat.repr_eq_ofList_toDigits, digits]

/-- An integer is read as it is written. -/
lemma integer?_toString (n : ℤ) : integer? (toString n).toList = some n := by
  rw [toList_toString]
  split
  case isTrue hn => rw [integer?_digits, Int.toNat_of_nonneg hn]
  case isFalse hn =>
    rw [integer?, natural?_digits]
    have hneg : -((-n).toNat : ℤ) = n := by omega
    exact congrArg some hneg

lemma isDigit_or_eq_of_mem_toString {n : ℤ} {c : Char} (h : c ∈ (toString n).toList) :
    c.isDigit = true ∨ c = '-' := by
  rw [toList_toString] at h
  split at h
  · exact .inl (isDigit_of_mem_digits h)
  · rcases List.mem_cons.1 h with rfl | hmem
    · exact .inr rfl
    · exact .inl (isDigit_of_mem_digits hmem)

namespace Mantissa

variable {cs : List Char} {q : ℚ}

lemma isDigit_or_eq (h : Mantissa cs q) : ∀ c ∈ cs, c.isDigit = true ∨ c = '.' := by
  intro c hc
  cases h with
  | whole hds => exact .inl (hds c hc)
  | pointed hds hfs =>
    rcases List.mem_append.1 hc with hleft | hright
    · exact .inl (hds c hleft)
    · rcases List.mem_cons.1 hright with rfl | hmem
      · exact .inr rfl
      · exact .inl (hfs c hmem)

lemma read (h : Mantissa cs q) : readPointed cs = q := by
  have hpoint {ds : List Char} (hds : ∀ c ∈ ds, c.isDigit = true) :
      ∀ c ∈ ds, (c != '.') = true := by
    intro c hc
    rw [bne_iff_ne]
    rintro rfl
    exact absurd (hds '.' hc) (by decide)
  cases h with
  | whole hds =>
    have htake := List.takeWhile_eq_self_iff.2 (hpoint hds)
    have hdrop := List.dropWhile_eq_nil_iff.2 (hpoint hds)
    simp [readPointed, htake, hdrop]
  | @pointed ds fs hds hfs =>
    have hrun : MaximalRun (· != '.') ds ('.' :: fs) := ⟨hpoint hds, by simp⟩
    simp only [readPointed, hrun.takeWhile_append, hrun.dropWhile_append, List.tail_cons]

end Mantissa

namespace Numeral

variable {cs : List Char} {q r : ℚ}

lemma isDigit_or_mem (h : Numeral cs q) : ∀ c ∈ cs, c.isDigit = true ∨ c ∈ ['.', 'e', '-'] := by
  intro c hc
  cases h with
  | plain h => exact (h.isDigit_or_eq c hc).imp_right (by rintro rfl; decide)
  | scaled h exponent =>
    rcases List.mem_append.1 hc with hleft | hright
    · exact (h.isDigit_or_eq c hleft).imp_right (by rintro rfl; decide)
    · rcases List.mem_cons.1 hright with rfl | hmem
      · exact .inr (by decide)
      · exact (isDigit_or_eq_of_mem_toString hmem).imp_right (by rintro rfl; decide)

/-- A numeral has no sign. -/
lemma head_ne (h : Numeral cs q) : ∀ c ∈ cs.head?, c ≠ '-' := by
  have hmantissa {ds : List Char} {r : ℚ} (h : Mantissa ds r) : ∀ c ∈ ds, c ≠ '-' := by
    rintro c hc rfl
    exact absurd (h.isDigit_or_eq '-' hc) (by decide)
  intro c hc
  cases h with
  | plain h => exact hmantissa h c (List.mem_of_head? hc)
  | @scaled ds r h exponent =>
    cases ds with
    | nil =>
      obtain rfl : 'e' = c := Option.some.inj hc
      decide
    | cons d more => exact hmantissa h c (List.mem_of_head? hc)

lemma read (h : Numeral cs q) : readScaled cs = q := by
  have hletter {ds : List Char} {r : ℚ} (h : Mantissa ds r) : ∀ c ∈ ds, (c != 'e') = true := by
    intro c hc
    rw [bne_iff_ne]
    rintro rfl
    exact absurd (h.isDigit_or_eq 'e' hc) (by decide)
  cases h with
  | plain h =>
    have htake := List.takeWhile_eq_self_iff.2 (hletter h)
    have hdrop := List.dropWhile_eq_nil_iff.2 (hletter h)
    simp [readScaled, htake, hdrop, h.read, integer?, natural?]
  | @scaled ds r h exponent =>
    have hrun : MaximalRun (· != 'e') ds ('e' :: (toString exponent).toList) :=
      ⟨hletter h, by simp⟩
    simp only [readScaled, hrun.takeWhile_append, hrun.dropWhile_append, List.tail_cons,
      integer?_toString, Option.getD_some, h.read]

/-- A text stands for one number only. -/
lemma unique (h : Numeral cs q) (h' : Numeral cs r) : q = r :=
  h.read.symm.trans h'.read

end Numeral

/-! ### Texts of decimals -/

section Layouts

variable {s : Scientific}

/-- A zero may stand where there are no digits. -/
lemma value_ite_append (whole rest : List Char) :
    value ((if whole.isEmpty then ['0'] else whole) ++ rest) = value (whole ++ rest) := by
  cases whole with
  | nil => simp [value, Nat.ofDigitChars_cons]
  | cons c more => simp

lemma isDigit_of_mem_replicate_zero {n : ℕ} {c : Char} (h : c ∈ List.replicate n '0') :
    c.isDigit = true := by
  rw [List.eq_of_mem_replicate h]
  decide

/-- The digits of a decimal before its point, filled up with zeros. -/
def Scientific.whole (s : Scientific) : List Char :=
  s.digits.take s.point.toNat ++ List.replicate (s.point.toNat - s.digits.length) '0'

/-- The digits of a decimal after its point. -/
def Scientific.fraction (s : Scientific) : List Char :=
  List.replicate (-s.point).toNat '0' ++ s.digits.drop s.point.toNat

lemma isDigit_of_mem_whole (hs : ∀ c ∈ s.digits, c.isDigit = true) :
    ∀ c ∈ s.whole, c.isDigit = true := by
  intro c hc
  rcases List.mem_append.1 hc with hleft | hright
  · exact hs c (List.mem_of_mem_take hleft)
  · exact isDigit_of_mem_replicate_zero hright

lemma isDigit_of_mem_fraction (hs : ∀ c ∈ s.digits, c.isDigit = true) :
    ∀ c ∈ s.fraction, c.isDigit = true := by
  intro c hc
  rcases List.mem_append.1 hc with hleft | hright
  · exact isDigit_of_mem_replicate_zero hleft
  · exact hs c (List.mem_of_mem_drop hright)

/-- A decimal without digits after its point is its whole part. -/
lemma toRat_of_length_le (h : s.digits.length ≤ s.point.toNat) : s.toRat = value s.whole := by
  rw [Scientific.toRat, Scientific.whole, List.take_of_length_le h, value_append,
    value_replicate_zero, List.length_replicate, add_zero]
  rcases List.eq_nil_or_concat s.digits with hnil | ⟨more, last, hconcat⟩
  · simp [hnil, value]
  · have hpos : 0 < s.digits.length := by simp [hconcat]
    have hpower : s.point - s.digits.length = ((s.point.toNat - s.digits.length : ℕ) : ℤ) := by
      omega
    rw [hpower, zpow_natCast]
    push_cast
    rfl

/-- A decimal by the digits on both sides of its point. -/
lemma toRat_of_lt_length (h : s.point.toNat < s.digits.length) :
    s.toRat = value (s.whole ++ s.fraction) / 10 ^ s.fraction.length := by
  have hvalue : value (s.whole ++ s.fraction) = value s.digits := by
    rw [Scientific.whole, Scientific.fraction, Nat.sub_eq_zero_of_le h.le, List.replicate_zero,
      List.append_nil]
    rcases le_or_gt 0 s.point with hpoint | hpoint
    · rw [Int.toNat_of_nonpos (by omega : -s.point ≤ 0), List.replicate_zero, List.nil_append,
        List.take_append_drop]
    · rw [Int.toNat_of_nonpos hpoint.le, List.take_zero, List.drop_zero, List.nil_append,
        value_append, value_replicate_zero, zero_mul, zero_add]
  have hlength : s.point - s.digits.length = -(s.fraction.length : ℤ) := by
    simp only [Scientific.fraction, List.length_append, List.length_replicate, List.length_drop]
    omega
  rw [Scientific.toRat, hvalue, hlength, zpow_neg, zpow_natCast, div_eq_mul_inv]

/-- A decimal without an exponent is written as a numeral for it. -/
lemma numeral_positional (hs : ∀ c ∈ s.digits, c.isDigit = true) :
    Numeral (Layout.marked.positional s).toList s.toRat := by
  have hzero : ∀ c ∈ ['0'], c.isDigit = true := List.forall_mem_singleton.2 (by decide)
  have hwhole : ∀ c ∈ (if s.whole.isEmpty then ['0'] else s.whole), c.isDigit = true := by
    split
    · exact hzero
    · exact isDigit_of_mem_whole hs
  rcases le_or_gt s.digits.length s.point.toNat with hlength | hlength
  · have htext : (Layout.marked.positional s).toList =
        (if s.whole.isEmpty then ['0'] else s.whole) ++ '.' :: ['0'] := by
      rw [Layout.positional, if_pos hlength, String.toList_append, String.toList_ofList]
      rfl
    have hnumeral := Mantissa.pointed hwhole hzero
    rw [value_ite_append, value_append, ← htext] at hnumeral
    rw [toRat_of_length_le hlength]
    refine .plain ?_
    convert hnumeral using 1
    simp [value, Nat.ofDigitChars_cons]
  · have htext : (Layout.marked.positional s).toList =
        (if s.whole.isEmpty then ['0'] else s.whole) ++ '.' :: s.fraction := by
      rw [Layout.positional, if_neg (not_le.2 hlength), String.toList_ofList]
      rfl
    have hnumeral := Mantissa.pointed hwhole (isDigit_of_mem_fraction hs)
    rw [value_ite_append, ← htext, ← toRat_of_lt_length hlength] at hnumeral
    exact .plain hnumeral

/-- A decimal with an exponent is written as a numeral for it. -/
lemma numeral_exponential (hs : ∀ c ∈ s.digits, c.isDigit = true) :
    Numeral (Layout.exponential s).toList s.toRat := by
  obtain ⟨ds, point⟩ := s
  match ds, hs with
  | [], hs =>
    convert Numeral.scaled (.whole hs) (point - 1) using 1
    · simp [Layout.exponential]
    · simp [Scientific.toRat, value]
  | [c], hs =>
    convert Numeral.scaled (.whole hs) (point - 1) using 1
    · simp [Layout.exponential]
    · simp [Scientific.toRat]
  | c :: d :: more, hs =>
    obtain ⟨hfirst, hmore⟩ := List.forall_mem_cons.1 hs
    convert Numeral.scaled (.pointed (List.forall_mem_singleton.2 hfirst) hmore) (point - 1) using 1
    · simp [Layout.exponential]
    · have hpower : point - ((c :: d :: more).length : ℤ) =
          -((d :: more).length : ℤ) + (point - 1) := by
        simp only [List.length_cons]
        omega
      rw [Scientific.toRat, hpower, zpow_add₀ (by norm_num), zpow_neg, zpow_natCast,
        div_eq_mul_inv, mul_assoc]
      rfl

lemma numeral_magnitude (hs : ∀ c ∈ s.digits, c.isDigit = true) :
    Numeral (Layout.marked.magnitude s).toList s.toRat := by
  rw [Layout.magnitude]
  split
  · exact numeral_positional hs
  · exact numeral_exponential hs

end Layouts

lemma isDigit_of_mem_shortest {mantissa : ℕ} {exponent : ℤ} :
    ∀ c ∈ (shortest mantissa exponent).digits, c.isDigit = true := by
  intro c hc
  rcases eq_or_ne mantissa 0 with rfl | hmantissa
  · simp [shortest] at hc
  · rw [shortest_eq hmantissa] at hc
    cases hfound : (List.range' 1 17).findSome? (onGrid mantissa exponent) with
    | none => simp [hfound] at hc
    | some s =>
      obtain ⟨places, -, hplaces⟩ := List.exists_of_findSome?_eq_some hfound
      obtain ⟨n, -, rfl⟩ := Option.map_eq_some_iff.1 hplaces
      rw [hfound, Option.getD_some, Scientific.ofNat, List.mem_reverse] at hc
      exact isDigit_of_mem_digits (List.mem_reverse.1 ((List.dropWhile_suffix _).subset hc))

/-! ### Texts of numbers -/

open Binary64

/-- The text of the number with the magnitude bits `k`, up to those of infinity. -/
def magnitudeText (k : ℕ) : List Char :=
  if k = infinityBits then "inf".toList
  else (Layout.marked.magnitude (shortest (mantissaOf k) (exponentOf k))).toList

lemma numeral_magnitudeText {k : ℕ} (h : k ≠ infinityBits) :
    Numeral (magnitudeText k) (shortest (mantissaOf k) (exponentOf k)).toRat := by
  rw [magnitudeText, if_neg h]
  exact numeral_magnitude isDigit_of_mem_shortest

/-- The word for infinity is no numeral. -/
lemma magnitudeText_ne_infinity {k : ℕ} (h : k ≠ infinityBits) :
    magnitudeText k ≠ "inf".toList := by
  intro hword
  have hletter : 'i' ∈ magnitudeText k := by simp [hword]
  exact absurd ((numeral_magnitudeText h).isDigit_or_mem 'i' hletter) (by decide)

/-- Different magnitudes have different texts. -/
lemma magnitudeText_injective : Function.Injective magnitudeText := by
  intro j k h
  by_cases hj : j = infinityBits
  · by_cases hk : k = infinityBits
    · exact hj.trans hk.symm
    · rw [magnitudeText, if_pos hj] at h
      exact absurd h.symm (magnitudeText_ne_infinity hk)
  · by_cases hk : k = infinityBits
    · rw [magnitudeText.eq_def k, if_pos hk] at h
      exact absurd h (magnitudeText_ne_infinity hj)
    · have hnumeral := numeral_magnitudeText hj
      rw [h] at hnumeral
      have hrat := hnumeral.unique (numeral_magnitudeText hk)
      have hholds := holds_shortest (mantissaOf_lt j) (exponentOf j)
      rw [hrat] at hholds
      exact eq_of_holds hholds (holds_shortest (mantissaOf_lt k) (exponentOf k))

/-- The text of a magnitude starts neither as a negative number nor as a NaN. -/
lemma head_magnitudeText (k : ℕ) : ∀ c ∈ (magnitudeText k).head?, c ≠ '-' ∧ c ≠ 'N' := by
  intro c hc
  by_cases hk : k = infinityBits
  · rw [magnitudeText, if_pos hk] at hc
    obtain rfl : 'i' = c := Option.some.inj hc
    decide
  · have hnumeral := numeral_magnitudeText hk
    refine ⟨hnumeral.head_ne c hc, ?_⟩
    rintro rfl
    exact absurd (hnumeral.isDigit_or_mem 'N' (List.mem_of_head? hc)) (by decide)

/-- The text of a number by its sign and its magnitude. -/
def signedText (negative : Bool) (k : ℕ) : List Char :=
  if negative then '-' :: magnitudeText k else magnitudeText k

/-- Sign and magnitude can be told from the text. -/
lemma signedText_inj {a b : Bool} {j k : ℕ} (h : signedText a j = signedText b k) :
    a = b ∧ j = k := by
  have hsign (j k : ℕ) : magnitudeText j ≠ '-' :: magnitudeText k := by
    intro hminus
    have hhead : '-' ∈ (magnitudeText j).head? := by simp [hminus]
    exact (head_magnitudeText j '-' hhead).1 rfl
  cases a <;> cases b <;>
    simp only [signedText, Bool.false_eq_true, if_false, if_true, List.cons.injEq, true_and] at h
  · exact ⟨rfl, magnitudeText_injective h⟩
  · exact absurd h (hsign j k)
  · exact absurd h.symm (hsign k j)
  · exact ⟨rfl, magnitudeText_injective h⟩

lemma signedText_ne_nan (negative : Bool) (k : ℕ) : signedText negative k ≠ ['N', 'a', 'N'] := by
  intro h
  rw [signedText] at h
  split at h
  · exact absurd (List.cons.inj h).1 (by decide)
  · have hhead : 'N' ∈ (magnitudeText k).head? := by simp [h]
    exact (head_magnitudeText k 'N' hhead).2 rfl

variable {x y : Binary64}

lemma toList_render_of_isNaN (h : x.isNaN = true) :
    (Layout.marked.render x).toList = ['N', 'a', 'N'] := by
  have hsize : x.size = .nan := by
    rw [size]
    exact if_pos (by simpa [isNaN] using h)
  simp [Layout.render, hsize]

lemma toList_render_of_not_isNaN (h : x.isNaN = false) :
    (Layout.marked.render x).toList = signedText x.isNegative x.magnitude := by
  have hle : ¬ infinityBits < x.magnitude := by simpa [isNaN] using h
  rw [signedText, magnitudeText]
  by_cases hinfinite : x.magnitude = infinityBits
  · have hsize : x.size = .infinite := by simp only [size, if_neg hle, if_pos hinfinite]
    simp only [Layout.render, hsize, if_pos hinfinite]
    cases x.isNegative <;> rfl
  · have hsize := size_of_magnitude_lt (x := x) (by omega)
    simp only [Layout.render, hsize, if_neg hinfinite]
    cases x.isNegative <;> simp

/-- A number by its sign and its magnitude. -/
lemma eq_of_magnitude_eq (hsign : x.isNegative = y.isNegative) (h : x.magnitude = y.magnitude) :
    x = y := by
  obtain ⟨a⟩ := x
  obtain ⟨b⟩ := y
  simp only [isNegative, decide_eq_decide] at hsign
  simp only [magnitude] at h
  simp only [signUnit] at hsign h
  have ha := a.toNat_lt
  have hb := b.toNat_lt
  have hbits : a.toNat = b.toNat := by omega
  rw [UInt64.toNat_inj.1 hbits]

/-- Two numbers have the same text exactly if they are equal or both are NaNs. -/
lemma render_marked_eq_iff :
    Layout.marked.render x = Layout.marked.render y ↔
      x = y ∨ x.isNaN = true ∧ y.isNaN = true := by
  constructor
  · intro h
    have htext := congrArg String.toList h
    cases hx : x.isNaN <;> cases hy : y.isNaN
    · rw [toList_render_of_not_isNaN hx, toList_render_of_not_isNaN hy] at htext
      obtain ⟨hsign, hmagnitude⟩ := signedText_inj htext
      exact .inl (eq_of_magnitude_eq hsign hmagnitude)
    · rw [toList_render_of_not_isNaN hx, toList_render_of_isNaN hy] at htext
      exact absurd htext (signedText_ne_nan _ _)
    · rw [toList_render_of_isNaN hx, toList_render_of_not_isNaN hy] at htext
      exact absurd htext.symm (signedText_ne_nan _ _)
    · exact .inr ⟨rfl, rfl⟩
  · rintro (rfl | ⟨hx, hy⟩)
    · rfl
    · rw [← String.toList_inj, toList_render_of_isNaN hx, toList_render_of_isNaN hy]

/-- The text of a number stays on its line. -/
lemma newline_notMem_render (x : Binary64) : '\n' ∉ (Layout.marked.render x).toList := by
  have hmagnitude (k : ℕ) : '\n' ∉ magnitudeText k := by
    intro hmem
    by_cases hk : k = infinityBits
    · rw [magnitudeText, if_pos hk] at hmem
      exact absurd hmem (by decide)
    · exact absurd ((numeral_magnitudeText hk).isDigit_or_mem '\n' hmem) (by decide)
  intro hmem
  cases hx : x.isNaN with
  | true =>
    rw [toList_render_of_isNaN hx] at hmem
    exact absurd hmem (by decide)
  | false =>
    rw [toList_render_of_not_isNaN hx, signedText] at hmem
    split at hmem
    · rcases List.mem_cons.1 hmem with hminus | hmem
      · exact absurd hminus (by decide)
      · exact hmagnitude _ hmem
    · exact hmagnitude _ hmem

end ColonScript.Decimal
