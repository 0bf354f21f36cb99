import ColonScript.Decimal.Layout
import Mathlib

/-!
# The intervals of shortest decimals

The finite numbers of one sign are counted by their magnitude bits, and the reals that round to
the number with the bits `k` form an interval from `lower k` to `upper k`.  These intervals lie
side by side (`Binary64.lower_succ`).  An end that two of them share belongs to the number with the
even mantissa only, so that no two intervals have a number in common (`Binary64.eq_of_holds`).

The shortest decimal of a number lies in its interval (`Decimal.holds_shortest`).  The search for it
does end with a result: on the grid of seventeen digits the step is less than the length of the
interval (`Decimal.onGrid_seventeen_ne_none`).
-/

namespace ColonScript

open Binary64 (exponentUnit)

namespace Decimal

/-! ### Neighbourhoods over the rationals -/

namespace Neighbourhood

variable {near : Neighbourhood} {unit q : ℚ}

/-- Whether a number lies in the neighbourhood, whose unit is `unit`. -/
def Holds (near : Neighbourhood) (unit q : ℚ) : Prop :=
  if near.closed then near.low * unit ≤ q ∧ q ≤ near.high * unit
  else near.low * unit < q ∧ q < near.high * unit

lemma Holds.low_le (h : near.Holds unit q) : near.low * unit ≤ q := by
  rw [Holds] at h
  split at h
  · exact h.1
  · exact h.1.le

lemma Holds.le_high (h : near.Holds unit q) : q ≤ near.high * unit := by
  rw [Holds] at h
  split at h
  · exact h.2
  · exact h.2.le

lemma Holds.closed_of_eq_low (h : near.Holds unit q) (hq : q = near.low * unit) :
    near.closed = true := by
  rw [Holds] at h
  split at h
  · assumption
  · exact absurd hq h.1.ne'

lemma Holds.closed_of_eq_high (h : near.Holds unit q) (hq : q = near.high * unit) :
    near.closed = true := by
  rw [Holds] at h
  split at h
  · assumption
  · exact absurd hq h.2.ne

end Neighbourhood

end Decimal

namespace Binary64

/-! ### Intervals side by side -/

/-- The mantissa of the finite number with the magnitude bits `k`. -/
def mantissaOf (k : ℕ) : ℕ :=
  k - (max (k / exponentUnit) 1 - 1) * exponentUnit

/-- The exponent of the finite number with the magnitude bits `k`. -/
def exponentOf (k : ℕ) : ℤ :=
  (max (k / exponentUnit) 1 : ℕ) - 1075

lemma size_of_magnitude_lt {x : Binary64} (h : x.magnitude < infinityBits) :
    x.size = .finite (mantissaOf x.magnitude) (exponentOf x.magnitude) := by
  have hle : ¬ infinityBits < x.magnitude := by omega
  have hne : x.magnitude ≠ infinityBits := by omega
  simp only [size, if_neg hle, if_neg hne]
  split <;> simp only [mantissaOf, exponentOf, exponentUnit, Size.finite.injEq] at * <;> omega

lemma mantissaOf_lt (k : ℕ) : mantissaOf k < 2 * exponentUnit := by
  simp only [mantissaOf, exponentUnit]
  omega

lemma mantissaOf_mod_two (k : ℕ) : mantissaOf k % 2 = k % 2 := by
  simp only [mantissaOf, exponentUnit]
  omega

/-- The next number has the next mantissa, or the least mantissa of the next exponent. -/
lemma mantissaOf_succ (k : ℕ) :
    (mantissaOf (k + 1) = mantissaOf k + 1 ∧ exponentOf (k + 1) = exponentOf k ∧
      ¬ (mantissaOf (k + 1) = exponentUnit ∧ -1074 < exponentOf (k + 1))) ∨
    (mantissaOf k + 1 = 2 * exponentUnit ∧ mantissaOf (k + 1) = exponentUnit ∧
      exponentOf (k + 1) = exponentOf k + 1 ∧ -1074 < exponentOf (k + 1)) := by
  simp only [mantissaOf, exponentOf, exponentUnit]
  omega

/-- The reals that round to the number with the magnitude bits `k`. -/
def near (k : ℕ) : Decimal.Neighbourhood :=
  Decimal.neighbourhood (mantissaOf k) (exponentOf k)

/-- The unit of these reals. -/
def unit (k : ℕ) : ℚ :=
  2 ^ (exponentOf k - 2)

/-- The lower end of the interval. -/
def lower (k : ℕ) : ℚ :=
  (near k).low * unit k

/-- The upper end of the interval. -/
def upper (k : ℕ) : ℚ :=
  (near k).high * unit k

lemma unit_pos (k : ℕ) : 0 < unit k := by
  rw [unit]
  positivity

/-- Each interval starts where the one before it ends. -/
lemma lower_succ (k : ℕ) : lower (k + 1) = upper k := by
  simp only [lower, upper, near, unit, Decimal.neighbourhood]
  rcases mantissaOf_succ k with ⟨hmantissa, hexponent, hfirst⟩ | ⟨hlast, hmantissa, hexponent, hlow⟩
  · rw [if_neg hfirst, hmantissa, hexponent]
    have hlow : 4 * (mantissaOf k + 1) - 2 = 4 * mantissaOf k + 2 := by omega
    rw [hlow]
  · rw [if_pos ⟨hmantissa, hlow⟩, hmantissa, hexponent]
    have hunit : (2 : ℚ) ^ (exponentOf k + 1 - 2) = 2 * 2 ^ (exponentOf k - 2) := by
      rw [add_sub_right_comm, zpow_add_one₀ two_ne_zero, mul_comm]
    have hlow : 4 * mantissaOf k + 2 = 2 * (4 * exponentUnit - 1) := by
      simp only [exponentUnit] at *
      omega
    rw [hunit, hlow]
    push_cast
    ring

lemma lower_lt_upper (k : ℕ) : lower k < upper k := by
  have hlow : (near k).low < (near k).high := by
    simp only [near, Decimal.neighbourhood]
    split <;> omega
  rw [lower, upper]
  exact mul_lt_mul_of_pos_right (by exact_mod_cast hlow) (unit_pos k)

lemma upper_strictMono : StrictMono upper := by
  apply strictMono_nat_of_lt_succ
  intro k
  rw [← lower_succ]
  exact lower_lt_upper (k + 1)

/-- Different intervals have no number in common. -/
lemma eq_of_holds {j k : ℕ} {q : ℚ} (hj : (near j).Holds (unit j) q)
    (hk : (near k).Holds (unit k) q) : j = k := by
  wlog hle : j ≤ k generalizing j k
  · exact (this hk hj (by omega)).symm
  by_contra hne
  obtain ⟨i, rfl⟩ : ∃ i, k = i + 1 := ⟨k - 1, by omega⟩
  have hupper : q ≤ upper j := hj.le_high
  have hlower : upper i ≤ q := lower_succ i ▸ hk.low_le
  have hmono : upper j ≤ upper i := upper_strictMono.monotone (by omega)
  -- then the number is the common end of two intervals, and both of them contain it
  obtain rfl : j = i := upper_strictMono.injective (by linarith)
  have hq : q = upper j := by linarith
  have heven : (near j).closed = true := hj.closed_of_eq_high hq
  have heven' : (near (j + 1)).closed = true := hk.closed_of_eq_low (hq.trans (lower_succ j).symm)
  simp only [near, Decimal.neighbourhood, mantissaOf_mod_two, beq_iff_eq] at heven heven'
  omega

end Binary64

namespace Decimal

/-! ### Decimals as numbers -/

lemma value_append (a b : List Char) : value (a ++ b) = value a * 10 ^ b.length + value b := by
  rw [value, Nat.ofDigitChars_append, Nat.ofDigitChars_eq_ofDigitChars_zero, mul_comm]
  rfl

lemma value_replicate_zero (n : ℕ) : value (List.replicate n '0') = 0 := by
  rw [value, Nat.ofDigitChars_replicate_zero, mul_zero]

/-- The number that a decimal stands for. -/
def Scientific.toRat (s : Scientific) : ℚ :=
  value s.digits * 10 ^ (s.point - s.digits.length)

/-- Digits are what is left without the zeros at their end, and then these zeros. -/
lemma exists_append_zeros (ds : List Char) :
    ∃ k, ds = (ds.reverse.dropWhile (· == '0')).reverse ++ List.replicate k '0' := by
  have hzeros : ∀ c ∈ ds.reverse.takeWhile (· == '0'), c = '0' := by
    intro c hc
    simpa using List.mem_takeWhile_imp hc
  refine ⟨(ds.reverse.takeWhile (· == '0')).length, ?_⟩
  apply List.reverse_injective
  rw [List.reverse_append, List.reverse_reverse, List.reverse_replicate,
    ← List.eq_replicate_of_mem hzeros, List.takeWhile_append_dropWhile]

/-- Leaving out the zeros at the end of the digits does not change the number. -/
lemma toRat_ofNat (n : ℕ) (exponent : ℤ) :
    (Scientific.ofNat n exponent).toRat = n * 10 ^ exponent := by
  obtain ⟨k, hk⟩ := exists_append_zeros (digits n)
  rw [Scientific.toRat, Scientific.ofNat]
  generalize ((digits n).reverse.dropWhile (· == '0')).reverse = kept at hk
  have hvalue : n = value kept * 10 ^ k := by
    conv_lhs => rw [← value_digits n, hk, value_append, value_replicate_zero,
      List.length_replicate, add_zero]
  have hpower : ((digits n).length + exponent - kept.length : ℤ) = k + exponent := by
    simp only [hk, List.length_append, List.length_replicate]
    omega
  rw [hpower, zpow_add₀ (by norm_num), zpow_natCast, ← mul_assoc]
  congr 1
  exact_mod_cast hvalue.symm

/-! ### The search on a grid -/

/-- A power with a positive or a negative exponent as a quotient of two natural powers. -/
lemma zpow_mul_pow_toNat {a : ℚ} (ha : a ≠ 0) (p : ℤ) :
    a ^ p * a ^ (-p).toNat = a ^ p.toNat := by
  rw [← zpow_natCast a (-p).toNat, ← zpow_natCast a p.toNat, ← zpow_add₀ ha]
  congr 1
  omega

/-- Membership on a grid is membership of the rational number. -/
lemma Neighbourhood.contains_iff {near : Neighbourhood} {unit step n : ℕ} {u c : ℚ} (hc : 0 < c)
    (hstep : 0 < step) (hunit : unit * c = u * step) :
    near.contains unit step n = true ↔ near.Holds u (n * c) := by
  have hscale : (0 : ℚ) < c / step := by positivity
  have hends (m : ℕ) : ((m * unit : ℕ) : ℚ) * (c / step) = m * u := by
    push_cast
    field_simp
    rw [mul_assoc, hunit]
    ring
  have hpoint : ((n * step : ℕ) : ℚ) * (c / step) = n * c := by
    push_cast
    field_simp
  have hle (a b : ℕ) : a ≤ b ↔ (a : ℚ) * (c / step) ≤ b * (c / step) := by
    rw [mul_le_mul_iff_of_pos_right hscale, Nat.cast_le]
  have hlt (a b : ℕ) : a < b ↔ (a : ℚ) * (c / step) < b * (c / step) := by
    rw [mul_lt_mul_iff_of_pos_right hscale, Nat.cast_lt]
  rw [contains, Holds]
  split
  · simp only [Bool.and_eq_true, decide_eq_true_eq, hle, hends, hpoint]
  · simp only [Bool.and_eq_true, decide_eq_true_eq, hlt, hends, hpoint]

lemma Neighbourhood.contains_of_multiple? {near : Neighbourhood} {unit step n : ℕ}
    (h : near.multiple? unit step = some n) : near.contains unit step n = true := by
  simp only [multiple?] at h
  split at h
  · obtain rfl := Option.some.inj h
    split <;> assumption
  · obtain rfl := Option.some.inj h
    assumption
  · obtain rfl := Option.some.inj h
    assumption
  · cases h

/-- If no multiple is found then the step is at least as long as the neighbourhood. -/
lemma Neighbourhood.le_step_of_multiple? {near : Neighbourhood} {unit step : ℕ}
    (hunit : 0 < unit) (hstep : 0 < step) (hlow : near.low < near.value)
    (hhigh : near.value < near.high) (h : near.multiple? unit step = none) :
    near.high * unit ≤ near.low * unit + step := by
  have hbelow : near.contains unit step (near.value * unit / step) = false := by
    simp only [multiple?] at h
    split at h <;> simp_all
  have habove : near.contains unit step (near.value * unit / step + 1) = false := by
    simp only [multiple?] at h
    split at h <;> simp_all
  have hdown : near.value * unit / step * step ≤ near.value * unit := Nat.div_mul_le_self _ _
  have hup : near.value * unit < (near.value * unit / step + 1) * step :=
    (Nat.div_lt_iff_lt_mul hstep).1 (Nat.lt_succ_self _)
  have hleft : near.low * unit < near.value * unit := Nat.mul_lt_mul_of_pos_right hlow hunit
  have hright : near.value * unit < near.high * unit := Nat.mul_lt_mul_of_pos_right hhigh hunit
  rw [contains] at hbelow habove
  rw [Nat.add_one_mul] at habove hup
  clear hlow hhigh h
  generalize near.value * unit / step * step = below at *
  generalize near.low * unit = low at *
  generalize near.value * unit = value at *
  generalize near.high * unit = high at *
  generalize near.closed = closed at *
  -- the multiple below the number is below the neighbourhood, and the next one above it
  cases closed <;>
    simp only [Bool.false_eq_true, if_false, if_true, Bool.and_eq_false_iff,
      decide_eq_false_iff_not] at hbelow habove <;> omega

lemma pow_length_digits_le {n : ℕ} (hn : 0 < n) : 10 ^ ((digits n).length - 1) ≤ n := by
  by_contra hlt
  have hpos : 0 < (digits n).length - 1 := by
    by_contra hzero
    rw [Nat.eq_zero_of_not_pos hzero, pow_zero] at hlt
    omega
  have hle := (Nat.length_toDigits_le_iff (by decide) hpos).2 (not_le.1 hlt)
  rw [digits] at hpos hle
  omega

lemma lt_pow_length_digits (n : ℕ) : n < 10 ^ (digits n).length :=
  (Nat.length_toDigits_le_iff (by decide) (List.length_pos_of_ne_nil (digits_ne_nil n))).1 le_rfl

/-- A fraction is not below the power of ten that its point tells. -/
lemma zpow_pointOf_le {num den : ℕ} (hnum : 0 < num) (hden : 0 < den) :
    (10 : ℚ) ^ (pointOf num den - 1) ≤ num / den := by
  rw [pointOf]
  split
  case isTrue hle =>
    have hdigits := pow_length_digits_le (Nat.div_pos hle hden)
    have hlength := List.length_pos_of_ne_nil (digits_ne_nil (num / den))
    have hpower : ((digits (num / den)).length : ℤ) - 1 =
        (((digits (num / den)).length - 1 : ℕ) : ℤ) := by omega
    rw [hpower, zpow_natCast]
    calc (10 : ℚ) ^ ((digits (num / den)).length - 1) ≤ (num / den : ℕ) := by exact_mod_cast hdigits
      _ ≤ num / den := Nat.cast_div_le
  case isFalse hlt =>
    have hdigits := lt_pow_length_digits ((den - 1) / num)
    rw [Nat.div_lt_iff_lt_mul hnum] at hdigits
    generalize (digits ((den - 1) / num)).length = length at hdigits
    have hpower : (1 - length - 1 : ℤ) = -(length : ℤ) := by omega
    have hle : den ≤ num * 10 ^ length := by
      rw [mul_comm]
      omega
    rw [hpower, zpow_neg, zpow_natCast, inv_eq_one_div,
      div_le_div_iff₀ (by positivity) (by positivity), one_mul]
    exact_mod_cast hle

/-- The place of the point of `mantissa * 2 ^ exponent`. -/
def point (mantissa : ℕ) (exponent : ℤ) : ℤ :=
  pointOf (Binary64.scale mantissa 1 (-exponent)).1 (Binary64.scale mantissa 1 (-exponent)).2

lemma zpow_point_le {mantissa : ℕ} (hm : 0 < mantissa) (exponent : ℤ) :
    (10 : ℚ) ^ (point mantissa exponent - 1) ≤ mantissa * 2 ^ exponent := by
  have hnum : 0 < (Binary64.scale mantissa 1 (-exponent)).1 := Nat.mul_pos hm (Nat.pow_pos two_pos)
  have hden : 0 < (Binary64.scale mantissa 1 (-exponent)).2 :=
    Nat.mul_pos one_pos (Nat.pow_pos two_pos)
  refine (zpow_pointOf_le hnum hden).trans_eq ?_
  rw [div_eq_iff (by exact_mod_cast hden.ne')]
  simp only [Binary64.scale, neg_neg, one_mul, Nat.pow_eq, Nat.cast_mul, Nat.cast_pow,
    Nat.cast_ofNat]
  rw [mul_assoc, zpow_mul_pow_toNat two_ne_zero]

/-- The unit of a neighbourhood on the grid of the multiples of `10 ^ power`. -/
def gridUnit (exponent power : ℤ) : ℕ :=
  2 ^ (exponent - 2).toNat * 10 ^ (-power).toNat

/-- The step of this grid. -/
def gridStep (exponent power : ℤ) : ℕ :=
  2 ^ (2 - exponent).toNat * 10 ^ power.toNat

lemma gridUnit_mul_zpow (exponent power : ℤ) :
    gridUnit exponent power * (10 : ℚ) ^ power = 2 ^ (exponent - 2) * gridStep exponent power := by
  have htwo := zpow_mul_pow_toNat (two_ne_zero (α := ℚ)) (exponent - 2)
  have hten := zpow_mul_pow_toNat (show (10 : ℚ) ≠ 0 by norm_num) power
  rw [neg_sub] at htwo
  simp only [gridUnit, gridStep, Nat.cast_mul, Nat.cast_pow, Nat.cast_ofNat]
  rw [← htwo, ← hten]
  ring

/-- The decimal with a given number of digits that is nearest to `mantissa * 2 ^ exponent`, if it
is near enough. -/
def onGrid (mantissa : ℕ) (exponent : ℤ) (places : ℕ) : Option Scientific :=
  let power := point mantissa exponent - places
  ((neighbourhood mantissa exponent).multiple? (gridUnit exponent power)
    (gridStep exponent power)).map (Scientific.ofNat · power)

lemma shortest_eq {mantissa : ℕ} (hm : mantissa ≠ 0) (exponent : ℤ) :
    shortest mantissa exponent =
      ((List.range' 1 17).findSome? (onGrid mantissa exponent)).getD ⟨[], 0⟩ := by
  rw [shortest, if_neg hm]
  rfl

lemma gridUnit_pos (exponent power : ℤ) : 0 < gridUnit exponent power := by
  rw [gridUnit]
  positivity

lemma gridStep_pos (exponent power : ℤ) : 0 < gridStep exponent power := by
  rw [gridStep]
  positivity

/-- What is found on a grid lies in the neighbourhood. -/
lemma holds_of_onGrid {mantissa places : ℕ} {exponent : ℤ} {s : Scientific}
    (h : onGrid mantissa exponent places = some s) :
    (neighbourhood mantissa exponent).Holds (2 ^ (exponent - 2)) s.toRat := by
  obtain ⟨n, hn, rfl⟩ := Option.map_eq_some_iff.1 h
  rw [toRat_ofNat]
  exact (Neighbourhood.contains_iff (by positivity) (gridStep_pos _ _)
    (gridUnit_mul_zpow _ _)).1 (Neighbourhood.contains_of_multiple? hn)

/-- A neighbourhood is four units long, and three below the least mantissa of an exponent. -/
lemma neighbourhood_length {mantissa : ℕ} (hpos : 0 < mantissa) (exponent : ℤ) :
    (neighbourhood mantissa exponent).low + 4 = (neighbourhood mantissa exponent).high ∨
      mantissa = exponentUnit ∧
        (neighbourhood mantissa exponent).low + 3 = (neighbourhood mantissa exponent).high := by
  simp only [neighbourhood]
  split
  case isTrue hfirst => exact .inr ⟨hfirst.1, by omega⟩
  case isFalse => exact .inl (by omega)

/-- If nothing is found on a grid then its step is at least as long as the neighbourhood. -/
lemma length_le_of_onGrid_eq_none {mantissa places : ℕ} {exponent : ℤ} (hpos : 0 < mantissa)
    (h : onGrid mantissa exponent places = none) :
    (((neighbourhood mantissa exponent).high : ℚ) - (neighbourhood mantissa exponent).low) *
      2 ^ (exponent - 2) ≤ 10 ^ (point mantissa exponent - places) := by
  set power := point mantissa exponent - places
  set near := neighbourhood mantissa exponent with hnear
  have hlow : near.low < near.value := by
    simp only [hnear, neighbourhood]
    split <;> omega
  have hhigh : near.value < near.high := by
    simp only [hnear, neighbourhood]
    omega
  have hstep := Neighbourhood.le_step_of_multiple? (gridUnit_pos exponent power)
    (gridStep_pos exponent power) hlow hhigh (Option.map_eq_none_iff.1 h)
  have hcast : ((near.high : ℚ) - near.low) * gridUnit exponent power ≤
      gridStep exponent power := by
    rw [sub_mul, sub_le_iff_le_add']
    exact_mod_cast hstep
  have hpositive : (0 : ℚ) < gridStep exponent power := by exact_mod_cast gridStep_pos _ _
  refine le_of_mul_le_mul_right ?_ hpositive
  calc ((near.high : ℚ) - near.low) * 2 ^ (exponent - 2) * gridStep exponent power
      = ((near.high : ℚ) - near.low) * gridUnit exponent power * 10 ^ power := by
        rw [mul_assoc, ← gridUnit_mul_zpow, mul_assoc]
    _ ≤ gridStep exponent power * 10 ^ power := by gcongr
    _ = 10 ^ power * gridStep exponent power := mul_comm _ _

/-- On the grid of seventeen digits there is always a decimal that is near enough. -/
lemma onGrid_seventeen_ne_none {mantissa : ℕ} (hpos : 0 < mantissa)
    (hlt : mantissa < 2 * exponentUnit) (exponent : ℤ) : onGrid mantissa exponent 17 ≠ none := by
  intro hnone
  have hlength := length_le_of_onGrid_eq_none hpos hnone
  have hvalue := zpow_point_le hpos exponent
  -- the step is the power of ten below the number, divided by `10 ^ 16`
  have hten : (10 : ℚ) ^ (point mantissa exponent - 1) =
      10 ^ (point mantissa exponent - (17 : ℕ)) * 10 ^ 16 := by
    rw [← zpow_natCast, ← zpow_add₀ (by norm_num)]
    congr 1
    omega
  have htwo : (2 : ℚ) ^ exponent = 2 ^ (exponent - 2) * 4 := by
    rw [show (4 : ℚ) = 2 ^ (2 : ℤ) by norm_num, ← zpow_add₀ two_ne_zero, sub_add_cancel]
  have hwide : (neighbourhood mantissa exponent).low * 10 ^ 16 + 4 * mantissa <
      (neighbourhood mantissa exponent).high * 10 ^ 16 := by
    simp only [exponentUnit] at hlt
    rcases neighbourhood_length hpos exponent with hlength | ⟨hfirst, hlength⟩
    · omega
    · simp only [exponentUnit] at hfirst
      omega
  have hwide' : (4 * mantissa : ℚ) < (((neighbourhood mantissa exponent).high : ℚ) -
      (neighbourhood mantissa exponent).low) * 10 ^ 16 := by
    rw [sub_mul, lt_sub_iff_add_lt']
    exact_mod_cast hwide
  have hunit : (0 : ℚ) < 2 ^ (exponent - 2) := by positivity
  refine absurd hwide' (not_lt.2 (le_of_mul_le_mul_right ?_ hunit))
  rw [hten, htwo] at hvalue
  linarith

/-- The shortest decimal of a number lies in its neighbourhood. -/
lemma holds_shortest {mantissa : ℕ} (hlt : mantissa < 2 * exponentUnit) (exponent : ℤ) :
    (neighbourhood mantissa exponent).Holds (2 ^ (exponent - 2))
      (shortest mantissa exponent).toRat := by
  rcases Nat.eq_zero_or_pos mantissa with rfl | hpos
  · have hzero : (shortest 0 exponent).toRat = 0 := by simp [shortest, Scientific.toRat, value]
    have hunit : (0 : ℚ) ≤ 2 ^ (exponent - 2) := by positivity
    rw [hzero, Neighbourhood.Holds]
    simpa [neighbourhood, exponentUnit] using hunit
  · obtain ⟨s, hs⟩ : ∃ s, (List.range' 1 17).findSome? (onGrid mantissa exponent) = some s := by
      rw [← Option.isSome_iff_exists, List.findSome?_isSome_iff]
      refine ⟨17, by decide, ?_⟩
      exact Option.isSome_iff_ne_none.2 (onGrid_seventeen_ne_none hpos hlt exponent)
    obtain ⟨places, -, hplaces⟩ := List.exists_of_findSome?_eq_some hs
    rw [shortest_eq hpos.ne', hs]
    exact holds_of_onGrid hplaces

end Decimal

end ColonScript
