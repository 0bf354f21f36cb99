import ColonScript.Decimal.Binary64

/-!
# Shortest decimals

Among the decimals that round to a given binary64 number there are some with the fewest
digits.  `shortest` finds the one nearest to the number.  It tries one digit, two digits and
so on: on the grid of decimals with that many digits it looks at the two neighbours of the
number, and the first grid that has a neighbour close enough wins.  Of two neighbours that are
close enough and equally near, the larger is taken.

All comparisons are exact.  Near a number `m * 2 ^ e` lengths are counted in quarters of
`2 ^ e`, because half the gap to the next number is two quarters, or only one below a power of
two.
-/

namespace ColonScript.Decimal

/-- A decimal `0.d₁d₂… * 10 ^ point` by its digits, without zeros at the end. -/
structure Scientific where
  digits : List Char
  point : Int
deriving DecidableEq, Repr

/-- The decimal `n * 10 ^ exponent`. -/
def Scientific.ofNat (n : Nat) (exponent : Int) : Scientific where
  digits := ((Decimal.digits n).reverse.dropWhile (· == '0')).reverse
  point := (Decimal.digits n).length + exponent

/-- The reals that round to a number: from `low` to `high`, in the same unit as `value`, the
number itself.  The ends belong to it or not. -/
structure Neighbourhood where
  low : Nat
  value : Nat
  high : Nat
  closed : Bool
deriving Repr

/-- The reals that round to `mantissa * 2 ^ exponent`, in quarters of `2 ^ exponent`.  The ends
round to the number if its mantissa is even. -/
def neighbourhood (mantissa : Nat) (exponent : Int) : Neighbourhood where
  low := if mantissa = Binary64.exponentUnit ∧ -1074 < exponent then 4 * mantissa - 1 else 4 * mantissa - 2
  value := 4 * mantissa
  high := 4 * mantissa + 2
  closed := mantissa % 2 == 0

/-- Whether `n * step` lies in the neighbourhood, whose unit is `unit`. -/
def Neighbourhood.contains (near : Neighbourhood) (unit step n : Nat) : Bool :=
  if near.closed then near.low * unit ≤ n * step && n * step ≤ near.high * unit
  else near.low * unit < n * step && n * step < near.high * unit

/-- The multiple of `step` in the neighbourhood that is nearest to the number, if one of the
two multiples around the number lies in it. -/
def Neighbourhood.multiple? (near : Neighbourhood) (unit step : Nat) : Option Nat :=
  let below := near.value * unit / step
  let rest := near.value * unit % step
  match near.contains unit step below, near.contains unit step (below + 1) with
  | true, true => some (if 2 * rest < step then below else below + 1)
  | true, false => some below
  | false, true => some (below + 1)
  | false, false => none

/-- The least `p` with `num / den < 10 ^ p`, for a positive fraction. -/
def pointOf (num den : Nat) : Int :=
  if den ≤ num then (digits (num / den)).length else 1 - (digits ((den - 1) / num)).length

/-- The decimal of fewest digits that rounds to `mantissa * 2 ^ exponent`, the nearest such. -/
def shortest (mantissa : Nat) (exponent : Int) : Scientific :=
  if mantissa = 0 then ⟨[], 0⟩
  else
    let near := neighbourhood mantissa exponent
    let (num, den) := Binary64.scale mantissa 1 (-exponent)
    let point := pointOf num den
    let up := Nat.pow 2 (exponent - 2).toNat
    let down := Nat.pow 2 (2 - exponent).toNat
    let onGrid (places : Nat) : Option Scientific :=
      let power := point - places
      let unit := up * Nat.pow 10 (-power).toNat
      let step := down * Nat.pow 10 power.toNat
      (near.multiple? unit step).map (Scientific.ofNat · power)
    ((List.range' 1 17).findSome? onGrid).getD ⟨[], 0⟩

end ColonScript.Decimal
