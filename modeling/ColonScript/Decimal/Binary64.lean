import ColonScript.Decimal.Numeral
import ColonScript.Decimal.Rounding

/-!
# Binary floating point in 64 bits

A number of the IEEE 754 format binary64, kept as its 64 bits: a sign, eleven bits of exponent
and fifty-two of mantissa.  Two numbers are equal here when their bits are, so that the two
zeros differ and a NaN equals itself.

All conversions are exact arithmetic on natural numbers: `ofRatio` rounds a quotient to the
nearest number, `truncate` drops the fraction, and `read?` reads a decimal.
-/

namespace ColonScript

/-- A number in the format binary64, as its bits. -/
structure Binary64 where
  bits : UInt64
deriving DecidableEq, Repr

namespace Binary64

/-- The weight of the sign bit, `2 ^ 63`. -/
def signUnit : Nat := 0x8000000000000000

/-- The weight of the lowest exponent bit, `2 ^ 52`. -/
def exponentUnit : Nat := 0x10000000000000

/-- The magnitude bits of the infinities; NaNs lie above, finite numbers below. -/
def infinityBits : Nat := 0x7ff0000000000000

/-- The number with the given sign and the given 63 magnitude bits. -/
def ofMagnitude (negative : Bool) (magnitude : Nat) : Binary64 :=
  ⟨UInt64.ofNat (if negative then signUnit + magnitude else magnitude)⟩

/-- Whether the sign bit is set. -/
def isNegative (x : Binary64) : Bool :=
  signUnit ≤ x.bits.toNat

/-- All bits but the sign. -/
def magnitude (x : Binary64) : Nat :=
  x.bits.toNat % signUnit

/-- Positive zero. -/
def zero : Binary64 := ofMagnitude false 0

/-- An infinity. -/
def infinity (negative : Bool) : Binary64 := ofMagnitude negative infinityBits

/-- The quiet NaN without payload. -/
def nan (negative : Bool) : Binary64 := ofMagnitude negative 0x7ff8000000000000

/-- What the magnitude of a number is. -/
inductive Size where
  | nan
  | infinite
  /-- The magnitude `mantissa * 2 ^ exponent`. -/
  | finite (mantissa : Nat) (exponent : Int)
deriving DecidableEq, Repr

/-- The magnitude of a number. -/
def size (x : Binary64) : Size :=
  let high := x.magnitude / exponentUnit
  let low := x.magnitude % exponentUnit
  if infinityBits < x.magnitude then .nan
  else if x.magnitude = infinityBits then .infinite
  else if high = 0 then .finite low (-1074)
  else .finite (exponentUnit + low) (high - 1075)

/-- Whether a number is no number. -/
def isNaN (x : Binary64) : Bool :=
  infinityBits < x.magnitude

/-- The fraction `num / den / 2 ^ exponent` as numerator and denominator. -/
def scale (num den : Nat) (exponent : Int) : Nat × Nat :=
  (num * Nat.pow 2 (-exponent).toNat, den * Nat.pow 2 exponent.toNat)

/-- The exponent `e` with `2 ^ e ≤ num / den < 2 ^ (e + 1)`, for a positive fraction. -/
def floorLog (num den : Nat) : Int :=
  let guess : Int := num.log2 - den.log2
  let (n, d) := scale num den guess
  if d ≤ n then guess else guess - 1

/-- The number nearest to `num / den`, with ties to the even mantissa.  A mantissa that rounds
up to the next power of two carries into the exponent, and from the largest number into
infinity. -/
def ofRatio (negative : Bool) (num den : Nat) : Binary64 :=
  if num = 0 then ofMagnitude negative 0
  else
    let exponent := max (floorLog num den - 52) (-1074)
    let (n, d) := scale num den exponent
    let rounded := (exponent + 1074).toNat * exponentUnit + Decimal.roundDiv n d
    ofMagnitude negative (min rounded infinityBits)

/-- The number nearest to an integer. -/
def ofInt (n : Int) : Binary64 :=
  ofRatio (n < 0) n.natAbs 1

/-- The number nearest to `mantissa * 10 ^ exponent`.  What lies beyond every finite number and
what lies below half the least positive one is settled before a power of ten is formed. -/
def ofDecimal (negative : Bool) (mantissa : Nat) (exponent : Int) : Binary64 :=
  let point := (Decimal.digits mantissa).length + exponent
  if mantissa = 0 || point < -330 then ofMagnitude negative 0
  else if 310 < point then infinity negative
  else ofRatio negative (mantissa * Nat.pow 10 exponent.toNat) (Nat.pow 10 (-exponent).toNat)

/-- The integer part, as the nearest 64-bit integer; zero for a NaN. -/
def truncate (x : Binary64) : Int64 :=
  let signed (n : Int) : Int := if x.isNegative then -n else n
  match x.size with
  | .nan => 0
  | .infinite => if x.isNegative then Int64.minValue else Int64.maxValue
  | .finite mantissa exponent =>
    let (n, d) := scale mantissa 1 (-exponent)
    Int64.ofIntClamp (signed (n / d : Nat))

/-- Reads the decimal exponent that may follow the digits of a number. -/
def exponent? : List Char → Option Int
  | [] => some 0
  | c :: rest => if c == 'e' || c == 'E' then Decimal.integer? rest else none

/-- Reads an unsigned decimal: digits with an optional point, at least one digit, and an
optional exponent. -/
def unsigned? (negative : Bool) (cs : List Char) : Option Binary64 :=
  let whole := cs.takeWhile Char.isDigit
  let afterWhole := cs.dropWhile Char.isDigit
  let (fraction, tail) := match afterWhole with
    | '.' :: rest => (rest.takeWhile Char.isDigit, rest.dropWhile Char.isDigit)
    | _ => ([], afterWhole)
  let mantissa := whole ++ fraction
  if mantissa.isEmpty then none
  else (exponent? tail).map fun e =>
    ofDecimal negative (Decimal.value mantissa) (e - fraction.length)

/-- Reads what may follow the sign of a number: a decimal, or one of the words for infinity and
NaN in any case. -/
def magnitude? (negative : Bool) (cs : List Char) : Option Binary64 :=
  let word := String.ofList (cs.map Char.toLower)
  if word == "inf" || word == "infinity" then some (infinity negative)
  else if word == "nan" then some (nan negative)
  else unsigned? negative cs

/-- Reads a number with an optional sign and rounds it to the nearest. -/
def read? : List Char → Option Binary64
  | '-' :: rest => magnitude? true rest
  | '+' :: rest => magnitude? false rest
  | cs => magnitude? false cs

end Binary64

end ColonScript
