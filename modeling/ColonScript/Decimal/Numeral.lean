/-!
# Numerals

Whole numbers in decimal.  A numeral is a non-empty run of ASCII digits, with any number of
leading zeros; a signed numeral may have one sign before it.
-/

namespace ColonScript.Decimal

/-- The number that a run of digits stands for. -/
def value (digits : List Char) : Nat :=
  Nat.ofDigitChars 10 digits 0

/-- The digits of a number, without leading zeros. -/
def digits (n : Nat) : List Char :=
  Nat.toDigits 10 n

/-- Reads a numeral without a sign. -/
def natural? (cs : List Char) : Option Nat :=
  if cs.isEmpty || !cs.all Char.isDigit then none else some (value cs)

/-- Reads a numeral with an optional sign. -/
def integer? : List Char → Option Int
  | '-' :: rest => (natural? rest).map fun n => -(n : Int)
  | '+' :: rest => (natural? rest).map Int.ofNat
  | cs => (natural? cs).map Int.ofNat

/-- Reads a numeral with an optional plus sign that fits in 64 bits. -/
def word64? (cs : List Char) : Option Nat :=
  let unsigned := match cs with
    | '+' :: rest => natural? rest
    | _ => natural? cs
  unsigned.filter (· < UInt64.size)

/-- Reads a numeral with an optional sign that fits in 64 bits with sign. -/
def int64? (cs : List Char) : Option Int64 :=
  let fits (n : Int) : Bool := Int64.minValue.toInt ≤ n && n ≤ Int64.maxValue.toInt
  ((integer? cs).filter fits).map Int64.ofInt

/-- Writing a number and reading it gives the number. -/
@[simp] theorem value_digits (n : Nat) : value (digits n) = n :=
  Nat.ofDigitChars_ten_toDigits

theorem isDigit_of_mem_digits {n : Nat} {c : Char} (hmem : c ∈ digits n) : c.isDigit = true :=
  Nat.isDigit_of_mem_toDigits (by decide) (by decide) hmem

theorem digits_ne_nil (n : Nat) : digits n ≠ [] :=
  Nat.toDigits_ne_nil

theorem natural?_digits (n : Nat) : natural? (digits n) = some n := by
  have hall : (digits n).all Char.isDigit = true :=
    List.all_eq_true.2 fun _ hmem => isDigit_of_mem_digits hmem
  simp [natural?, digits_ne_nil, hall]

end ColonScript.Decimal
