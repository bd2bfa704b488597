/-!
# Messages for a terminal

A terminal obeys some control characters instead of showing them. `spellOut` writes these out, so
that a message cannot give orders to the terminal it is shown on. Line feeds and tabs stay as they
are.
-/

namespace MiniProgram.Text

/-- A control character below 128 that a terminal obeys: the bell, the backspace, the form feed, the
escape and the delete character. -/
def isTerminalOrder (c : Char) : Bool :=
  c == '\x07' || c == '\x08' || c == '\x0c' || c == '\x1b' || c == '\x7f'

/-- A control character of the second set, each of which stands for an escape sequence. -/
def isUpperControl (c : Char) : Bool :=
  0x80 ≤ c.toNat && c.toNat ≤ 0x9F

/-- How a character is shown on a terminal: its code in place of a control character. -/
def spell (c : Char) : List Char :=
  if isTerminalOrder c then
    ['\\', 'x', Nat.digitChar (c.toNat / 16), Nat.digitChar (c.toNat % 16)]
  else if isUpperControl c then ['\\', 'u', '{'] ++ Nat.toDigits 16 c.toNat ++ ['}']
  else [c]

/-- `spellOut message` is how a message is shown on a terminal. -/
def spellOut (message : String) : String :=
  String.ofList (message.toList.flatMap spell)

end MiniProgram.Text
