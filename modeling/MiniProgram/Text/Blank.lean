/-!
# White space

A blank is a character with the Unicode property White_Space. Trimming, cutting a text into words
and testing for an empty line all use this one class. A zero-width space and a byte order mark are
not blank. The grammars of modules and of stylesheets have white space of their own, which is
defined where texts of these grammars are.
-/

namespace MiniProgram.Text

/-- A character with the Unicode property White_Space. -/
def isBlank (c : Char) : Bool :=
  let code := c.toNat
  (0x09 ≤ code && code ≤ 0x0D) || code == 0x20 || code == 0x85 || code == 0xA0 ||
    code == 0x1680 || (0x2000 ≤ code && code ≤ 0x200A) || code == 0x2028 || code == 0x2029 ||
    code == 0x202F || code == 0x205F || code == 0x3000

/-- `trimStart text` drops the leading blanks. -/
def trimStart (text : List Char) : List Char :=
  text.dropWhile isBlank

/-- `trimEnd text` drops the trailing blanks. -/
def trimEnd (text : List Char) : List Char :=
  (text.reverse.dropWhile isBlank).reverse

/-- `trim text` drops the blanks at both ends. -/
def trim (text : List Char) : List Char :=
  trimEnd (trimStart text)

/-- `words text` lists the maximal runs of characters that are not blank. -/
def words (text : List Char) : List (List Char) :=
  (text.splitBy fun a b => isBlank a == isBlank b).filter fun run => !run.all isBlank

/-- Trimming the front leaves a suffix. -/
theorem trimStart_suffix (text : List Char) : trimStart text <:+ text :=
  List.dropWhile_suffix isBlank

/-- Trimming the end leaves a leading part. -/
theorem trimEnd_prefix (text : List Char) : trimEnd text <+: text := by
  have h := List.dropWhile_suffix isBlank (l := text.reverse)
  simpa [trimEnd] using List.reverse_prefix.2 h

end MiniProgram.Text
