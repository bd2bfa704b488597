import MiniProgram.Text.Blank

/-!
# Stylesheets as texts

`compact` takes the comments and blank lines out of a stylesheet and trims its lines. `localUrls`
lists the addresses in a stylesheet that name files beside it. Both look at characters only and do
not know about strings.
-/

namespace MiniProgram.Style

open Text

/-- `afterComment text` is what follows the end of a comment, from inside the comment. -/
def afterComment : List Char → List Char
  | [] => []
  | '*' :: '/' :: rest => rest
  | _ :: rest => afterComment rest

/-- The text behind a comment is no longer than the text it starts in. -/
theorem length_afterComment_le (text : List Char) :
    (afterComment text).length ≤ text.length := by
  fun_induction afterComment text <;> simp_all <;> omega

/-- `stripComments css` takes all comments out. One that does not end takes the rest with it. -/
def stripComments : List Char → List Char
  | [] => []
  | '/' :: '*' :: rest => stripComments (afterComment rest)
  | c :: rest => c :: stripComments rest
termination_by css => css.length
decreasing_by
  · have := length_afterComment_le rest
    simp only [List.length_cons]; omega
  · simp

/-- The trimmed lines of a text that are not blank. -/
def solidLines (text : List Char) : List (List Char) :=
  ((text.splitOn '\n').map trim).filter (· ≠ [])

/-- `compact css` takes comments and blank lines out and trims all lines. -/
def compact (css : List Char) : List Char :=
  ['\n'].intercalate (solidLines (stripComments css))

/-- The texts behind the opening parentheses of all addresses. -/
def behindUrls : List Char → List (List Char)
  | [] => []
  | 'u' :: 'r' :: 'l' :: '(' :: rest => rest :: behindUrls rest
  | _ :: rest => behindUrls rest

/-- A quotation mark. -/
def isQuote (c : Char) : Bool :=
  c = '"' || c = '\''

/-- `unquote text` drops the quotation marks at both ends. -/
def unquote (text : List Char) : List Char :=
  ((text.dropWhile isQuote).reverse.dropWhile isQuote).reverse

/-- The starts of addresses that name no file. -/
def remoteStarts : List String :=
  ["data:", "http:", "https:", "//", "#"]

/-- An address that names a file. -/
def isLocal (url : List Char) : Bool :=
  url ≠ [] && !remoteStarts.any fun start => start.toList.isPrefixOf url

/-- The address in front of the next closing parenthesis, without blanks and quotation marks. -/
def url? (text : List Char) : Option (List Char) :=
  if text.contains ')' then some (trim (unquote (trim (text.takeWhile (· ≠ ')'))))) else none

/-- The addresses in a stylesheet that name files. -/
def localUrls (css : List Char) : List (List Char) :=
  ((behindUrls css).filterMap url?).filter isLocal

end MiniProgram.Style
