/-!
# Rounding a quotient

The quotient of two natural numbers, rounded to the nearest natural number; a quotient that
lies halfway goes to the even neighbour.
-/

namespace ColonScript.Decimal

/-- The natural number nearest to `num / den`, the even one if two are equally near. -/
def roundDiv (num den : Nat) : Nat :=
  let below := num / den
  let twice := 2 * (num % den)
  if den < twice || (twice == den && below % 2 == 1) then below + 1 else below

end ColonScript.Decimal
