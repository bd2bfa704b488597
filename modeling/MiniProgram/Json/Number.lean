import MiniProgram.Json.Binary64
import MiniProgram.Word

/-!
# Numbers of JSON

A numeral is the text of a number, taken apart. Its number is an integer when it has neither a
fraction nor an exponent and fits in 64 bits, with or without a sign. Any other number is a
binary64 number.

A binary64 number is read from the leading digits of the numeral that fit in 64 bits, and scaled by
a power of ten that is itself rounded. The result can differ from the nearest number in the last
place. It is written in the shortest form that denotes it, positionally when the exponent of the
leading digit lies between -5 and 15, and it always shows a decimal point or an exponent.
-/

namespace MiniProgram.Json

/-- The exponent of a numeral: its sign and its digits. -/
structure Exponent where
  negative : Bool
  digits : List Char
  deriving DecidableEq, Repr

/-- The text of a number, taken apart. Digits are kept as they are written. -/
structure Numeral where
  negative : Bool
  whole : List Char
  fraction : Option (List Char)
  exponent : Option Exponent
  deriving DecidableEq, Repr

/-- A number of JSON. A negative integer is given by its absolute value. -/
inductive Number where
  | natural (value : Nat)
  | minus (value : Nat)
  | float (value : Binary64)
  deriving DecidableEq, Repr

/-- The value of a digit. -/
def digitValue (c : Char) : Nat :=
  c.toNat - '0'.toNat

/-- `absorb limit value digits` appends digits to the number `value` for as long as it stays below
`limit`. It returns the number and the digits that are left. -/
def absorb (limit : Nat) (value : Nat) : List Char → Nat × List Char
  | [] => (value, [])
  | d :: rest =>
    if value * 10 + digitValue d < limit then absorb limit (value * 10 + digitValue d) rest
    else (value, d :: rest)

/-- `powerOfTen n` is the magnitude nearest to `10^n`, for `n` up to 308. -/
def powerOfTen (n : Nat) : Magnitude :=
  (Magnitude.ofNat (Nat.pow 10 n)).getD Magnitude.zero

/-- `scaleDown m n` divides `m` by `10^n`, in steps of at most `10^308`. -/
def scaleDown (m : Magnitude) (n : Nat) : Option Magnitude :=
  if n ≤ 308 then m.div (powerOfTen n)
  else if m.significand = 0 then some m
  else (m.div (powerOfTen 308)).bind fun next => scaleDown next (n - 308)
termination_by n

/-- `scale m n` multiplies `m` by `10^n`, and is `none` when the product is too large. -/
def scale (m : Magnitude) (n : Int) : Option Magnitude :=
  if n < 0 then scaleDown m (-n).toNat
  else if n ≤ 308 then m.mul (powerOfTen n.toNat)
  else if m.significand = 0 then some m
  else none

namespace Numeral

/-- One more than the greatest exponent that is told apart from larger ones. -/
def exponentLimit : Nat := wordLimit 31

/-- The leading digits of a numeral as a number, and the power of ten that it counts. -/
def leading (n : Numeral) : Nat × Int :=
  let (value, wholeLeft) := absorb (wordLimit 64) 0 n.whole
  let fraction := n.fraction.getD []
  let (value, fractionLeft) := absorb (wordLimit 64) value fraction
  (value, (wholeLeft.length : Int) - (fraction.length - fractionLeft.length))

/-- `shifted exponent start` adds the exponent of a numeral to `start`, the sum bounded as a 32-bit
integer is. -/
def shifted (exponent : Exponent) (value : Nat) (start : Int) : Int :=
  let sum := if exponent.negative then start - value else start + value
  max (-exponentLimit) (min (exponentLimit - 1) sum)

/-- The magnitude of a numeral that is not an integer of 64 bits, or `none` when it is too large. -/
def magnitude? (n : Numeral) : Option Magnitude :=
  let (value, start) := n.leading
  let scaled (power : Int) := (Magnitude.ofNat value).bind (scale · power)
  match n.exponent with
  | none => scaled start
  | some exponent =>
    match absorb exponentLimit 0 exponent.digits with
    | (power, []) => scaled (shifted exponent power start)
    | _ => if value = 0 ∨ exponent.negative then some Magnitude.zero else none

/-- The integer that a numeral denotes, if it has neither fraction nor exponent and fits. -/
def integer? (n : Numeral) : Option Number :=
  if n.fraction.isSome || n.exponent.isSome then none
  else
    match absorb (wordLimit 64) 0 n.whole with
    | (value, []) =>
      if !n.negative then some (.natural value)
      else if 0 < value ∧ value ≤ wordLimit 63 then some (.minus value)
      else none
    | _ => none

/-- The number that a numeral denotes, or `none` when it is too large. -/
def number? (n : Numeral) : Option Number :=
  match n.integer? with
  | some number => some number
  | none => n.magnitude?.map fun magnitude => .float ⟨n.negative, magnitude⟩

/-- The text of a numeral. -/
def text (n : Numeral) : List Char :=
  (if n.negative then ['-'] else []) ++ n.whole ++
    (match n.fraction with
      | none => []
      | some digits => '.' :: digits) ++
    (match n.exponent with
      | none => []
      | some exponent => 'e' :: (if exponent.negative then '-' else '+') :: exponent.digits)

/-- The numeral of a natural number. -/
def ofNat (n : Nat) : Numeral :=
  ⟨false, Nat.toDigits 10 n, none, none⟩

/-- The numeral of a decimal that is not zero. Digits are written positionally when the exponent of
the leading digit lies between -5 and 15. -/
def ofDecimal (negative : Bool) (d : Magnitude.Decimal) : Numeral :=
  let digits := Nat.toDigits 10 d.digits
  let lead := d.exponent + digits.length - 1
  if -5 ≤ lead ∧ lead ≤ 15 then
    if 0 ≤ d.exponent then
      ⟨negative, digits ++ List.replicate d.exponent.toNat '0', some ['0'], none⟩
    else if 0 ≤ lead then
      ⟨negative, digits.take (lead.toNat + 1), some (digits.drop (lead.toNat + 1)), none⟩
    else
      ⟨negative, ['0'], some (List.replicate (-lead - 1).toNat '0' ++ digits), none⟩
  else
    ⟨negative, digits.take 1, if digits.length = 1 then none else some (digits.drop 1),
      some ⟨lead < 0, Nat.toDigits 10 lead.natAbs⟩⟩

end Numeral

/-- The numeral in which a number is written. -/
def Number.numeral : Number → Numeral
  | .natural value => .ofNat value
  | .minus value => { Numeral.ofNat value with negative := true }
  | .float ⟨negative, magnitude⟩ =>
    if magnitude.significand = 0 then ⟨negative, ['0'], some ['0'], none⟩
    else .ofDecimal negative magnitude.shortest

end MiniProgram.Json
