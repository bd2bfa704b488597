/-!
# Binary64 numbers

The finite numbers of the 64-bit binary format, as a sign and a magnitude `significand * 2^exponent`
in exact integer arithmetic. `roundQuotient` rounds a quotient of natural numbers to the nearest
magnitude, a tie to the even significand. `shortest` finds the shortest decimal that rounds to a
magnitude, and among the decimals of that length the nearest one.
-/

namespace MiniProgram.Json

/-- A magnitude `significand * 2^exponent`. A rounded magnitude has a significand below `2^53` and
an exponent between `-1074` and `971`. The significand is at least `2^52`, unless the exponent is
the least one. -/
structure Magnitude where
  significand : Nat
  exponent : Int
  deriving DecidableEq, Repr

/-- A finite binary64 number. Zero has two signs. -/
structure Binary64 where
  negative : Bool
  magnitude : Magnitude
  deriving DecidableEq, Repr

namespace Magnitude

/-- The least exponent of a magnitude. -/
def leastExponent : Int := -1074

/-- The greatest exponent of a magnitude. -/
def greatestExponent : Int := 971

/-- One more than the greatest significand, which has 53 binary digits. -/
def significandLimit : Nat := Nat.pow 2 53

/-- The magnitude of zero. -/
def zero : Magnitude := ⟨0, leastExponent⟩

/-- `scaled num den exponent` is the quotient `num / den` divided by `2^exponent`, as a pair of
numerator and denominator. -/
def scaled (num den : Nat) (exponent : Int) : Nat × Nat :=
  if 0 ≤ exponent then (num, den * Nat.pow 2 exponent.toNat)
  else (num * Nat.pow 2 (-exponent).toNat, den)

/-- `roundHalfEven num den` rounds the quotient to the nearest natural number, a tie to the even
one. -/
def roundHalfEven (num den : Nat) : Nat :=
  let floor := num / den
  let twice := 2 * (num % den)
  if twice < den ∨ (twice = den ∧ floor % 2 = 0) then floor else floor + 1

/-- The exponent at which the quotient `num / den` has a significand of 53 binary digits, or the
least exponent. -/
def exponentOf (num den : Nat) : Int :=
  let guess := max leastExponent ((num.log2 : Int) - den.log2 - 53)
  let (num, den) := scaled num den guess
  if num / den < significandLimit then guess else guess + 1

/-- `roundQuotient num den` is the magnitude nearest to `num / den`, or `none` when that is beyond
the greatest one. -/
def roundQuotient (num den : Nat) : Option Magnitude :=
  if num = 0 then some zero
  else
    let exponent := exponentOf num den
    let (num, den) := scaled num den exponent
    let significand := roundHalfEven num den
    let result : Magnitude :=
      if significand < significandLimit then ⟨significand, exponent⟩
      else ⟨significandLimit / 2, exponent + 1⟩
    if result.exponent ≤ greatestExponent then some result else none

/-- `ofNat n` is the magnitude nearest to `n`. -/
def ofNat (n : Nat) : Option Magnitude :=
  roundQuotient n 1

/-- The magnitude as a quotient of natural numbers. -/
def ratio (m : Magnitude) : Nat × Nat :=
  if 0 ≤ m.exponent then (m.significand * Nat.pow 2 m.exponent.toNat, 1)
  else (m.significand, Nat.pow 2 (-m.exponent).toNat)

/-- `mul a b` is the magnitude nearest to the product. -/
def mul (a b : Magnitude) : Option Magnitude :=
  roundQuotient (a.ratio.1 * b.ratio.1) (a.ratio.2 * b.ratio.2)

/-- `div a b` is the magnitude nearest to the quotient. -/
def div (a b : Magnitude) : Option Magnitude :=
  roundQuotient (a.ratio.1 * b.ratio.2) (a.ratio.2 * b.ratio.1)

/-- The interval of numbers that round to `m`: its lower and its upper end, both in units of
`2^(m.exponent - 2)`. Below a power of two the neighbours are closer. -/
def neighbourhood (m : Magnitude) : Nat × Nat :=
  let below := if m.significand = significandLimit / 2 ∧ leastExponent < m.exponent then 1 else 2
  (4 * m.significand - below, 4 * m.significand + 2)

/-- A decimal `digits * 10^exponent`. -/
structure Decimal where
  digits : Nat
  exponent : Int
  deriving DecidableEq, Repr

/-- The decimal as a quotient of natural numbers. -/
def Decimal.ratio (d : Decimal) : Nat × Nat :=
  if 0 ≤ d.exponent then (d.digits * Nat.pow 10 d.exponent.toNat, 1)
  else (d.digits, Nat.pow 10 (-d.exponent).toNat)

/-- `roundsTo m d` says that the decimal `d` rounds to `m`. The ends of the interval belong to it
when the significand is even. -/
def roundsTo (m : Magnitude) (d : Decimal) : Bool :=
  let (num, den) := d.ratio
  let (num, den) := scaled num den (m.exponent - 2)
  let (low, high) := m.neighbourhood
  if m.significand % 2 = 0 then low * den ≤ num && num ≤ high * den
  else low * den < num && num < high * den

/-- `nearer m a b` chooses the decimal that is nearer to `m`, and of two equally near ones the even
one. Both have the same exponent, and `a` is below `m`, which is below `b`. -/
def nearer (m : Magnitude) (a b : Decimal) : Decimal :=
  let (num, den) := m.ratio
  let (low, lowDen) := a.ratio
  let (high, _) := b.ratio
  let twice := 2 * num * lowDen
  let middle := (low + high) * den
  if twice < middle ∨ (twice = middle ∧ a.digits % 2 = 0) then a else b

/-- `leadingZeros num den count` is the number of zeros that follow the decimal point of
`num / den`, counted up to `count`. -/
def leadingZeros (num den : Nat) : Nat → Nat
  | 0 => 0
  | count + 1 => if den ≤ num * 10 then 0 else leadingZeros (num * 10) den count + 1

/-- The exponent of the leading decimal digit of a magnitude other than zero. -/
def decimalExponent (m : Magnitude) : Int :=
  let (num, den) := m.ratio
  if den ≤ num then ((Nat.toDigits 10 (num / den)).length : Int) - 1
  else -(leadingZeros num den 400 : Int) - 1

/-- `shortestFrom m lead count left` tries decimals of `count` digits and more, at most `left`
lengths of them, where `lead` is the exponent of the leading digit. -/
def shortestFrom (m : Magnitude) (lead : Int) (count : Nat) : Nat → Decimal
  | 0 => ⟨m.significand, 0⟩
  | left + 1 =>
    let exponent := lead - count + 1
    let (num, den) := m.ratio
    let unit := Decimal.ratio ⟨1, exponent⟩
    let below : Decimal := ⟨num * unit.2 / (den * unit.1), exponent⟩
    let above : Decimal := ⟨below.digits + 1, exponent⟩
    match roundsTo m below, roundsTo m above with
    | true, true => nearer m below above
    | true, false => below
    | false, true => above
    | false, false => shortestFrom m lead (count + 1) left

/-- `dropZeros d count` drops at most `count` trailing zeros of the digits. -/
def dropZeros (d : Decimal) : Nat → Decimal
  | 0 => d
  | count + 1 =>
    if d.digits % 10 = 0 then dropZeros ⟨d.digits / 10, d.exponent + 1⟩ count else d

/-- `shortest m` is the shortest decimal that rounds to `m`, which is not zero. Seventeen digits
always suffice. -/
def shortest (m : Magnitude) : Decimal :=
  dropZeros (shortestFrom m m.decimalExponent 1 17) 17

end Magnitude

end MiniProgram.Json
