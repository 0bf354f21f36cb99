import ColonScript.Decimal.Shortest

/-!
# The text of a number

A binary64 number is written in one of two ways: by its shortest decimal, laid out with or
without an exponent, or rounded to a fixed number of places.  A `Layout` holds the decisions
of the first way.
-/

namespace ColonScript.Decimal

/-- How a shortest decimal is laid out. -/
structure Layout where
  /-- What follows a number without fraction. -/
  wholeMark : String
  /-- Whether a decimal with its point at this place is written without an exponent. -/
  isPositional : Int → Bool

namespace Layout

/-- Always without an exponent, and a whole number without a point. -/
def plain : Layout := ⟨"", fun _ => true⟩

/-- A whole number keeps a zero after its point; an exponent is used from `10 ^ 16` on and below
`10 ^ (-4)`. -/
def marked : Layout := ⟨".0", fun point => -4 < point && point ≤ 16⟩

/-- A decimal without exponent. -/
def positional (layout : Layout) (number : Scientific) : String :=
  let places := number.point.toNat
  let whole := number.digits.take places ++
    List.replicate (places - number.digits.length) '0'
  let fraction := List.replicate (-number.point).toNat '0' ++ number.digits.drop places
  let before := if whole.isEmpty then ['0'] else whole
  if number.digits.length ≤ places then String.ofList before ++ layout.wholeMark
  else String.ofList (before ++ '.' :: fraction)

/-- A decimal with one digit before its point and an exponent. -/
def exponential (number : Scientific) : String :=
  let tail := match number.digits.drop 1 with
    | [] => []
    | more => '.' :: more
  String.ofList (number.digits.take 1 ++ tail) ++ "e" ++ toString (number.point - 1)

/-- The text of a finite magnitude. -/
def magnitude (layout : Layout) (number : Scientific) : String :=
  if layout.isPositional number.point then layout.positional number else exponential number

/-- The text of a number in this layout. -/
def render (layout : Layout) (x : Binary64) : String :=
  let sign := if x.isNegative then "-" else ""
  match x.size with
  | .nan => "NaN"
  | .infinite => sign ++ "inf"
  | .finite mantissa exponent => sign ++ layout.magnitude (shortest mantissa exponent)

end Layout

/-- A natural number with its last `places` digits after a point. -/
def withPoint (places n : Nat) : String :=
  let ds := digits n
  let padded := List.replicate (places + 1 - ds.length) '0' ++ ds
  String.ofList (padded.take (padded.length - places) ++ '.' :: padded.drop (padded.length - places))

/-- The text of a number rounded to a fixed number of places, ties to the even digit. -/
def fixed (places : Nat) (x : Binary64) : String :=
  let sign := if x.isNegative then "-" else ""
  match x.size with
  | .nan => "NaN"
  | .infinite => sign ++ "inf"
  | .finite mantissa exponent =>
    let (num, den) := Binary64.scale (mantissa * Nat.pow 10 places) 1 (-exponent)
    sign ++ withPoint places (roundDiv num den)

end ColonScript.Decimal
