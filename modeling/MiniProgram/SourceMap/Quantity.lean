import MiniProgram.Base64
import MiniProgram.SourceMap.Fault
import MiniProgram.Word

/-!
# Variable-length quantities

A signed number is written as base64 digits of five bits each, the lowest first. The sixth bit of a
digit says that another one follows. The lowest bit of the number is its sign.

Numbers are collected in 64-bit words, in which bits beyond the word are lost. A number of more than
thirteen digits overflows. A character that is no digit counts, for each of its bytes in UTF-8, as a
digit with all bits set.
-/

namespace MiniProgram.SourceMap.Quantity

/-- The digits of a number that is written with its sign in the lowest bit. -/
def digits (n : Nat) : List Char :=
  if n < 32 then [Base64.digit n] else Base64.digit (n % 32 + 32) :: digits (n / 32)
termination_by n

/-- The text of a number. -/
def write (n : Int) : List Char :=
  digits (if n < 0 then 2 * n.natAbs + 1 else 2 * n.natAbs)

/-- A digit that is read: its five bits, and whether another digit follows. -/
structure Digit where
  bits : Nat
  continues : Bool

/-- The digit with a given value. -/
def Digit.ofValue (n : Nat) : Digit :=
  ⟨n % 32, 32 ≤ n⟩

/-- The digits that a character counts as. -/
def digitsOf (c : Char) : List Digit :=
  match Base64.value? c with
  | some n => [.ofValue n]
  | none => List.replicate c.utf8Size ⟨31, true⟩

/-- The content of a 64-bit word as a signed number. -/
def word (n : Int) : Int :=
  Int.bmod n (wordLimit 64)

/-- The number whose sign is the lowest bit of a word. -/
def signed (n : Int) : Int :=
  if n % 2 = 0 then n / 2 else -(n / 2)

/-- `readFrom value shift text` reads numbers, of which the first has the bits of `value` so far and
goes on at bit `shift`. -/
def readFrom (value : Int) (shift : Nat) : List Digit → Except MapFault (List Int)
  | [] => if value = 0 ∧ shift = 0 then .ok [] else .error .leftover
  | digit :: rest =>
    if 64 ≤ shift then .error .overflow
    else
      let next := word (value + digit.bits * Nat.pow 2 shift)
      if digit.continues then readFrom next (shift + 5) rest
      else (readFrom 0 0 rest).map (signed next :: ·)

/-- The numbers that a text holds. -/
def read (text : List Char) : Except MapFault (List Int) :=
  readFrom 0 0 (text.flatMap digitsOf)

end MiniProgram.SourceMap.Quantity
