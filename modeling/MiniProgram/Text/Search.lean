import MiniProgram.Text.Identifier

/-!
# Finding words in a text

A word stands at a place when its characters are there and neither neighbour is an identifier
character. The search goes from the left and continues behind each occurrence, so occurrences
never overlap.
-/

namespace MiniProgram.Text

/-- `boundary neighbour` says that a word may end next to `neighbour`, which is absent at an end of
the text. -/
def boundary (neighbour : Option Char) : Bool :=
  !neighbour.any isIdentifierChar

/-- `occursFrom name previous text` says that `name` is found as a whole word in `text`, where
`previous` is the character in front of `text`. After an occurrence that is part of a longer word
the search continues behind it. -/
def occursFrom (name : List Char) (previous : Option Char) (text : List Char) : Bool :=
  match text with
  | [] => false
  | c :: rest =>
    if name.isPrefixOf (c :: rest) && 0 < name.length then
      (boundary previous && boundary ((c :: rest).drop name.length).head?) ||
        occursFrom name name.getLast? (rest.drop (name.length - 1))
    else occursFrom name (some c) rest
termination_by text.length
decreasing_by
  · simp only [List.length_drop, List.length_cons]; omega
  · simp only [List.length_cons]; omega

/-- `occurs name text` says that `name` is found as a whole word in `text`. -/
def occurs (name text : List Char) : Bool :=
  occursFrom name none text

end MiniProgram.Text
