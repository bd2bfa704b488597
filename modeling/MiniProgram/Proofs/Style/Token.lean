import MiniProgram.Json.Token
import MiniProgram.Style.Sheet

/-!
# Tokens of a stylesheet

`pieces` cuts a stylesheet into white space, comments and tokens, from the left to the right and
each as long as the syntax of style rules has it. `tokens` are what is left without white space and
comments, which only separate. What a token is depends on its text and on a few characters behind
it (`ReadsAs`), so a token can become another one when the text behind it changes.
-/

namespace MiniProgram.Style

/-- What a token is. A string is broken if it does not end on its line, and an address if it holds
what it cannot. A mark is any other character. -/
inductive Kind where
  | string
  | brokenString
  | word
  | function
  | atWord
  | hash
  | url
  | brokenUrl
  | number
  | percentage
  | dimension
  | opening
  | closing
  | mark
  deriving DecidableEq, Repr

/-- A token: its kind and its characters. -/
structure Token where
  kind : Kind
  text : List Char
  deriving DecidableEq, Repr

/-- A piece of a stylesheet. -/
inductive Piece where
  | space (text : List Char)
  | comment (text : List Char)
  | token (token : Token)
  deriving DecidableEq, Repr

section Characters

/-- A character that ends a line. -/
def isFeed (c : Char) : Bool :=
  c = '\n' || c = '\r' || c = '\x0c'

/-- A white space character. -/
def isSpace (c : Char) : Bool :=
  c = ' ' || c = '\t' || isFeed c

/-- A character that a name can start with. A NUL stands for a replacement character. -/
def isNameStart (c : Char) : Bool :=
  c.isAlpha || c = '_' || 0x80 ≤ c.toNat || c = '\x00'

/-- A character that can stand in a name. -/
def isNameChar (c : Char) : Bool :=
  isNameStart c || c.isDigit || c = '-'

/-- A control character that an address cannot hold. -/
def isControl (c : Char) : Bool :=
  (0x01 ≤ c.toNat && c.toNat ≤ 0x08) || c.toNat = 0x0B ||
    (0x0E ≤ c.toNat && c.toNat ≤ 0x1F) || c.toNat = 0x7F

/-- White space of a stylesheet is blank. -/
theorem isBlank_of_isSpace {c : Char} (h : isSpace c = true) : Text.isBlank c = true := by
  simp only [isSpace, isFeed, Bool.or_eq_true, decide_eq_true_eq] at h
  rcases h with (rfl | rfl) | (rfl | rfl) | rfl <;> decide

end Characters

section Escapes

/-- Where in an escape a character stands: in none, behind the backslash, behind hexadecimal digits
that make up `code` and of which `left` more can follow, or behind a carriage return. -/
inductive Phase where
  | plain
  | escape
  | hex (left code : Nat)
  | feed

/-- The phase behind a character that belongs to an escape. A white space behind hexadecimal digits
does. -/
def Phase.next? : Phase → Char → Option Phase
  | .plain, _ => none
  | .escape, c =>
    match Json.hexValue? c with
    | some digit => some (.hex 5 digit)
    | none => some (if c = '\r' then .feed else .plain)
  | .hex left code, c =>
    match left, Json.hexValue? c with
    | left + 1, some digit => some (.hex left (16 * code + digit))
    | _, _ => if c = '\r' then some .feed else if isSpace c then some .plain else none
  | .feed, c => if c = '\n' then some .plain else none

/-- The start of an escape outside of strings. -/
def startsEscape : List Char → Bool
  | '\\' :: rest => !rest.head?.any isFeed
  | _ => false

/-- The character with a code, or the replacement character. -/
def charOf (code : Nat) : Char :=
  if code = 0 ∨ ¬ code.isValidChar then '\uFFFD' else Char.ofNat code

/-- The character that an escape stands for when it ends. -/
def Phase.ended : Phase → List Char
  | .escape => ['\uFFFD']
  | .hex _ code => [charOf code]
  | .plain | .feed => []

/-- What a name stands for: its characters, with the escapes replaced. -/
def nameValue : Phase → List Char → List Char
  | phase, [] => phase.ended
  | phase, c :: rest =>
    match phase, phase.next? c with
    | _, none =>
      phase.ended ++ if c = '\\' then nameValue .escape rest else c :: nameValue .plain rest
    | _, some (.hex left code) => nameValue (.hex left code) rest
    | .escape, some next => c :: nameValue next rest
    | _, some next => phase.ended ++ nameValue next rest

end Escapes

section Names

/-- The number of characters of a name. -/
def nameLength : Phase → List Char → Nat
  | _, [] => 0
  | phase, c :: rest =>
    match phase.next? c with
    | some next => nameLength next rest + 1
    | none =>
      if isNameChar c then nameLength .plain rest + 1
      else if startsEscape (c :: rest) then nameLength .escape rest + 1
      else 0

/-- The start of a name. -/
def startsName : List Char → Bool
  | [] => false
  | c :: rest =>
    isNameStart c || startsEscape (c :: rest) ||
      c = '-' && (startsEscape rest || rest.head?.any fun d => isNameStart d || d = '-')

/-- A character that can stand in a name, or an escape. -/
def startsNamePart (text : List Char) : Bool :=
  startsEscape text || text.head?.any isNameChar

end Names

section Numbers

/-- `followed first second` is the length of a part and of another part behind it. -/
def followed (first second : List Char → Nat) (text : List Char) : Nat :=
  first text + second (text.drop (first text))

/-- The number of characters of a sign. -/
def signLength (text : List Char) : Nat :=
  if text.head?.any fun c => c = '+' || c = '-' then 1 else 0

/-- The number of digits at the start. -/
def digitsLength (text : List Char) : Nat :=
  (text.takeWhile Char.isDigit).length

/-- The number of characters of a point and the digits behind it. -/
def fractionLength : List Char → Nat
  | '.' :: rest => if digitsLength rest = 0 then 0 else digitsLength rest + 1
  | _ => 0

/-- The number of characters of an exponent. -/
def exponentLength : List Char → Nat
  | c :: rest =>
    if (c = 'e' ∨ c = 'E') ∧ digitsLength (rest.drop (signLength rest)) ≠ 0 then
      followed signLength digitsLength rest + 1
    else 0
  | [] => 0

/-- The number of characters of a number without sign and exponent. -/
def mantissaLength : List Char → Nat :=
  followed digitsLength fractionLength

/-- The start of a number. -/
def startsNumber (text : List Char) : Bool :=
  mantissaLength (text.drop (signLength text)) ≠ 0

/-- The number of characters of a number. -/
def numberLength : List Char → Nat :=
  followed signLength (followed mantissaLength exponentLength)

/-- Reads a number with its unit. -/
def readNumber (text : List Char) : Kind × Nat :=
  let rest := text.drop (numberLength text)
  if startsName rest then (.dimension, numberLength text + nameLength .plain rest)
  else if rest.head? = some '%' then (.percentage, numberLength text + 1)
  else (.number, numberLength text)

end Numbers

section Strings

/-- The same with more characters in front. -/
def more (count : Nat) (found : Kind × Nat) : Kind × Nat :=
  (found.1, found.2 + count)

/-- Reads a string behind its first quotation mark. It ends in front of a line end, unless a
backslash stands there. -/
def readString (quote : Char) : Phase → List Char → Kind × Nat
  | _, [] => (.brokenString, 0)
  | phase, c :: rest =>
    match phase.next? c with
    | some next => more 1 (readString quote next rest)
    | none =>
      if c = quote then (.string, 1)
      else if isFeed c then (.brokenString, 0)
      else more 1 (readString quote (if c = '\\' then .escape else .plain) rest)

/-- The number of characters up to the end of an address that is none. -/
def remnantLength : Phase → List Char → Nat
  | _, [] => 0
  | phase, c :: rest =>
    match phase.next? c with
    | some next => remnantLength next rest + 1
    | none =>
      if c = ')' then 1
      else if startsEscape (c :: rest) then remnantLength .escape rest + 1
      else remnantLength .plain rest + 1

/-- Reads an address behind its parenthesis and white space. White space can stand at its end
only. -/
def readUrl : Phase → List Char → Kind × Nat
  | _, [] => (.url, 0)
  | phase, c :: rest =>
    match phase.next? c with
    | some next => more 1 (readUrl next rest)
    | none =>
      if c = ')' then (.url, 1)
      else if isSpace c then
        match rest.dropWhile isSpace with
        | [] => (.url, (rest.takeWhile isSpace).length + 1)
        | ')' :: _ => (.url, (rest.takeWhile isSpace).length + 2)
        | other =>
          (.brokenUrl, (rest.takeWhile isSpace).length + 1 + remnantLength .plain other)
      else if startsEscape (c :: rest) then more 1 (readUrl .escape rest)
      else if isQuote c || c = '(' || c = '\\' || isControl c then
        (.brokenUrl, remnantLength .plain rest + 1)
      else more 1 (readUrl .plain rest)

/-- Reads a name, and the address behind it if it is called `url` and has no quotation marks. -/
def readWord (text : List Char) : Kind × Nat :=
  match text.drop (nameLength .plain text) with
  | '(' :: rest =>
    if (nameValue .plain (text.take (nameLength .plain text))).map Char.toLower ≠ ['u', 'r', 'l'] ∨
        (rest.dropWhile isSpace).head?.any isQuote then
      (.function, nameLength .plain text + 1)
    else
      more (nameLength .plain text + 1 + (rest.takeWhile isSpace).length)
        (readUrl .plain (rest.dropWhile isSpace))
  | _ => (.word, nameLength .plain text)

end Strings

section Pieces

/-- The start of a comment. -/
def startsComment : List Char → Bool
  | '/' :: '*' :: _ => true
  | _ => false

/-- The number of characters up to the end of a comment, from inside the comment. -/
def commentLength : List Char → Nat
  | [] => 0
  | '*' :: '/' :: _ => 2
  | _ :: rest => commentLength rest + 1

/-- Reads a string that starts a text. -/
def string? : List Char → Option (Kind × Nat)
  | [] => none
  | c :: rest => if isQuote c then some (more 1 (readString c .plain rest)) else none

/-- Reads a name behind a mark that starts a text. -/
def marked? (kind : Kind) (mark : Char) (starts : List Char → Bool) :
    List Char → Option (Kind × Nat)
  | [] => none
  | c :: rest => if c = mark ∧ starts rest then some (kind, nameLength .plain rest + 1) else none

/-- Reads a number that starts a text. -/
def number? (text : List Char) : Option (Kind × Nat) :=
  if startsNumber text then some (readNumber text) else none

/-- Reads characters that start a text. -/
def fixed? (kind : Kind) (start text : List Char) : Option (Kind × Nat) :=
  if start.isPrefixOf text then some (kind, start.length) else none

/-- Reads a name that starts a text, with what belongs to it. -/
def word? (text : List Char) : Option (Kind × Nat) :=
  if startsName text then some (readWord text) else none

/-- The readers of tokens other than strings and marks, the first one that applies counts. -/
def readers : List (List Char → Option (Kind × Nat)) :=
  [marked? .hash '#' startsNamePart, number?, fixed? .closing ['-', '-', '>'], word?,
    fixed? .opening ['<', '!', '-', '-'], marked? .atWord '@' startsName]

/-- Reads the token that starts a text. -/
def readToken (text : List Char) : Kind × Nat :=
  ((string? text).or (readers.findSome? fun read => read text)).getD (.mark, 1)

namespace Piece

/-- The characters of a piece. -/
def text : Piece → List Char
  | .space text | .comment text => text
  | .token found => found.text

/-- The token that a piece is. -/
def token? : Piece → Option Token
  | .space _ | .comment _ => none
  | .token found => some found

/-- A piece that is complete: a comment that is closed, or anything but a broken string. -/
def isClosed : Piece → Bool
  | .space _ => true
  | .comment text => ['*', '/'].isSuffixOf (text.drop 2)
  | .token found => found.kind ≠ .brokenString

end Piece

/-- The first piece of a text that starts with a character. -/
def pieceAt (c : Char) (rest : List Char) : Piece :=
  if isSpace c then .space (c :: rest.takeWhile isSpace)
  else if startsComment (c :: rest) then
    .comment (c :: rest.take (commentLength rest.tail + 1))
  else
    .token ⟨(readToken (c :: rest)).1, c :: rest.take ((readToken (c :: rest)).2 - 1)⟩

/-- The pieces of a text. -/
def pieces : List Char → List Piece
  | [] => []
  | c :: rest => pieceAt c rest :: pieces (rest.drop ((pieceAt c rest).text.length - 1))
termination_by text => text.length
decreasing_by
  rw [List.length_drop, List.length_cons]
  omega

/-- The tokens of a text. -/
def tokens (text : List Char) : List Token :=
  (pieces text).filterMap Piece.token?

/-- A text with all strings and comments closed. -/
def Complete (text : List Char) : Prop :=
  ∀ piece ∈ pieces text, piece.isClosed = true

/-- Whether all strings and comments are closed is decided by evaluation. -/
instance (text : List Char) : Decidable (Complete text) :=
  inferInstanceAs (Decidable (∀ piece ∈ pieces text, piece.isClosed = true))

/-- The first piece of a text. -/
def first? : List Char → Option Piece
  | [] => none
  | c :: rest => some (pieceAt c rest)

/-- `token.ReadsAs rest` says that a token is read in front of `rest`. -/
def Token.ReadsAs (token : Token) (rest : List Char) : Prop :=
  first? (token.text ++ rest) = some (.token token)

/-- Whether a token is read in front of a text is decided by evaluation. -/
instance (token : Token) (rest : List Char) : Decidable (token.ReadsAs rest) :=
  inferInstanceAs (Decidable (_ = _))

end Pieces

section Cutting

variable {c : Char} {text rest : List Char} {piece : Piece} {back : List Piece}

/-- The text of pieces. -/
def textOf (pieces : List Piece) : List Char :=
  pieces.flatMap Piece.text

/-- The text of pieces is that of the first one in front of that of the others. -/
@[simp]
theorem textOf_cons (piece : Piece) (back : List Piece) :
    textOf (piece :: back) = piece.text ++ textOf back :=
  List.flatMap_cons

/-- What the first piece of a text can be. -/
theorem pieceAt_cases (c : Char) (rest : List Char) :
    isSpace c = true ∧ pieceAt c rest = .space (c :: rest.takeWhile isSpace) ∨
      (∃ inner, c = '/' ∧ rest = '*' :: inner ∧
        pieceAt c rest = .comment ('/' :: '*' :: inner.take (commentLength inner))) ∨
      isSpace c = false ∧ startsComment (c :: rest) = false ∧
        pieceAt c rest =
          .token ⟨(readToken (c :: rest)).1, c :: rest.take ((readToken (c :: rest)).2 - 1)⟩ := by
  unfold pieceAt
  cases hspace : isSpace c with
  | true => exact .inl ⟨rfl, if_pos rfl⟩
  | false =>
      rw [if_neg Bool.false_ne_true]
      cases hcomment : startsComment (c :: rest) with
      | false => exact .inr (.inr ⟨rfl, rfl, if_neg Bool.false_ne_true⟩)
      | true =>
          unfold startsComment at hcomment
          split at hcomment
          · next inner heq =>
              obtain ⟨rfl, rfl⟩ := List.cons.inj heq
              exact .inr (.inl ⟨inner, rfl, rfl, if_pos rfl⟩)
          · cases hcomment

/-- A piece is what the text starts with. -/
theorem exists_text_pieceAt (c : Char) (rest : List Char) :
    ∃ front, (pieceAt c rest).text = c :: front ∧ front <+: rest := by
  unfold pieceAt
  split
  · exact ⟨_, rfl, List.takeWhile_prefix _⟩
  · split
    · exact ⟨_, rfl, List.take_prefix _ _⟩
    · exact ⟨_, rfl, List.take_prefix _ _⟩

/-- A text that is not empty is cut into its first piece and the pieces of what is behind it. -/
theorem pieces_cons (c : Char) (rest : List Char) :
    ∃ back, c :: rest = (pieceAt c rest).text ++ back ∧
      pieces (c :: rest) = pieceAt c rest :: pieces back := by
  obtain ⟨front, htext, back, rfl⟩ := exists_text_pieceAt c rest
  refine ⟨back, by rw [htext, List.cons_append], ?_⟩
  rw [pieces, htext, List.length_cons, Nat.add_sub_cancel, List.drop_left]

/-- Once its first piece is read, a text is read from behind it. -/
theorem pieces_of_first? (h : first? (piece.text ++ rest) = some piece) :
    pieces (piece.text ++ rest) = piece :: pieces rest := by
  cases htail : piece.text ++ rest with
  | nil =>
      rw [htail] at h
      cases h
  | cons c tail =>
      rw [htail, first?, Option.some.injEq] at h
      obtain ⟨back, hback, hpieces⟩ := pieces_cons c tail
      rw [h, ← htail] at hback
      rw [hpieces, h, List.append_cancel_left hback]

/-- The pieces make up the text. -/
theorem textOf_pieces (text : List Char) : textOf (pieces text) = text := by
  fun_induction pieces text with
  | case1 => rfl
  | case2 c rest ih =>
      obtain ⟨front, htext, back, rfl⟩ := exists_text_pieceAt c rest
      rw [textOf_cons, ih, htext, List.length_cons, Nat.add_sub_cancel, List.drop_left,
        List.cons_append]

/-- Pieces are read from the left to the right. -/
theorem exists_of_pieces (h : pieces text = piece :: back) :
    text = piece.text ++ textOf back ∧ first? text = some piece ∧ pieces (textOf back) = back := by
  have htext : text = piece.text ++ textOf back := by
    rw [← textOf_pieces text, h, textOf_cons]
  cases text with
  | nil =>
      rw [pieces] at h
      cases h
  | cons c rest =>
      obtain ⟨behind, hbehind, hpieces⟩ := pieces_cons c rest
      obtain ⟨rfl, rfl⟩ := List.cons.inj (hpieces.symm.trans h)
      exact ⟨htext, rfl, by rw [textOf_pieces]⟩

end Cutting

end MiniProgram.Style
