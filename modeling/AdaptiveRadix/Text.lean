namespace AdaptiveRadix
namespace Text

/-!
# Text of numbers

Numbers are written aligned, in base sixteen with capital digits, or with two decimal
places.
-/

def blanks (columns : Nat) : String :=
  String.ofList (List.replicate columns ' ')

/-- Text moved to the right end of a column.  Text wider than the column is kept whole. -/
def padLeft (width : Nat) (text : String) : String :=
  blanks (width - text.length) ++ text

/-! ## Hexadecimal -/

/-- The digits of a number, without leading zeros; zero has one digit. -/
def hex (number : Nat) : String :=
  String.ofList ((Nat.toDigits 16 number).map Char.toUpper)

/-- A byte as two digits. -/
def hexByte (byte : UInt8) : String :=
  if byte.toNat < 16 then "0" ++ hex byte.toNat else hex byte.toNat

example : hex 0 = "0" := by decide +kernel

example : hexByte 10 = "0A" := by decide +kernel

/-!
## Two decimal places

A double that is finite and not negative is an integer times a power of two, and it
is that number, not a shorter decimal near it, that is rounded to hundredths.  A
double can lie exactly halfway between two hundredths; it then goes to the even one.
-/

/-- The quotient rounded to the nearest integer, a half to the even one. -/
def roundedQuotient (numerator denominator : Nat) : Nat :=
  let quotient := numerator / denominator
  let twice := 2 * (numerator % denominator)
  if twice < denominator then quotient
  else if denominator < twice then quotient + 1
  else quotient + quotient % 2

/-- The integer `significand` and the exponent `exponent` for which the double is
`significand * 2 ^ exponent / 2 ^ 1075`.  Doubles near zero share the exponent 1. -/
def binaryParts (number : Float) : Nat × Nat :=
  let bits := number.toBits.toNat
  let hidden := 1 <<< 52
  let fraction := bits % hidden
  let exponent := bits / hidden % 2048
  if exponent = 0 then (fraction, 1) else (hidden + fraction, exponent)

/-- The number of hundredths nearest to a double. -/
def hundredths (number : Float) : Nat :=
  let parts := binaryParts number
  roundedQuotient (100 * parts.1 <<< (parts.2 - 1075)) (1 <<< (1075 - parts.2))

/-- The text with two decimal places. -/
def twoPlaces (number : Float) : String :=
  let rounded := hundredths number
  let cents := rounded % 100
  s!"{rounded / 100}." ++ (if cents < 10 then s!"0{cents}" else s!"{cents}")

/-- Rounding is off by half a unit at most. -/
theorem roundedQuotient_near (numerator : Nat) {denominator : Nat} (positive : 0 < denominator) :
    2 * numerator ≤ (2 * roundedQuotient numerator denominator + 1) * denominator ∧
      2 * roundedQuotient numerator denominator * denominator ≤ 2 * numerator + denominator := by
  have split := Nat.div_add_mod numerator denominator
  have below := Nat.mod_lt numerator positive
  have product : denominator * (numerator / denominator) = numerator / denominator * denominator :=
    Nat.mul_comm _ _
  have parity := Nat.mod_two_eq_zero_or_one (numerator / denominator)
  unfold roundedQuotient
  simp only
  split
  · constructor <;> simp only [Nat.add_mul, Nat.mul_assoc] <;> omega
  · split
    · constructor <;> simp only [Nat.add_mul, Nat.mul_add, Nat.mul_assoc] <;> omega
    · rcases parity with even | odd
      · rw [even]
        constructor <;> simp only [Nat.add_mul, Nat.mul_add, Nat.mul_assoc] <;> omega
      · rw [odd]
        constructor <;> simp only [Nat.add_mul, Nat.mul_add, Nat.mul_assoc] <;> omega

/-- Halfway between two integers the even one is taken. -/
theorem roundedQuotient_even_of_tie {numerator denominator : Nat}
    (tie : 2 * (numerator % denominator) = denominator) :
    roundedQuotient numerator denominator % 2 = 0 := by
  unfold roundedQuotient
  simp only [tie, Nat.lt_irrefl, if_false]
  omega

-- These doubles lie exactly between two hundredths; 0.12 and 0.38 are the even ones.
example : twoPlaces 0.125 = "0.12" := by decide +kernel

example : twoPlaces 0.375 = "0.38" := by decide +kernel

end Text
end AdaptiveRadix
