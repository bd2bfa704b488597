/-!
# Machine words

Some numbers have to fit in a machine word. The limit of a word with a given number of bits is one
more than the greatest number that fits.
-/

namespace MiniProgram

/-- `wordLimit bits` is one more than the greatest number of a word with `bits` bits. -/
def wordLimit (bits : Nat) : Nat :=
  Nat.pow 2 bits

end MiniProgram
