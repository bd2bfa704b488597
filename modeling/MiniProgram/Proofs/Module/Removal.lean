import MiniProgram.Proofs.Module.Import
import MiniProgram.Proofs.Source.Removal

/-!
# When a removed import is still used

An import declaration may be written with comments and white space between its tokens (`IsImport`).
Elimination reads its clause as plain text, and takes the word `import` at the start of any line for
a declaration up to the next string. So the import of a name that the output still uses can be
missing from it (`removal_unsound`).

Read `removal_sound_iff` first: this happens exactly for the names that are overlooked. A name is
overlooked when it is used in text that is taken for a declaration, or when it is used elsewhere and
no dropped declaration lists it. A name that is listed is used nowhere else (`covers_of_isListed`).
-/

namespace MiniProgram.Module

open Source Text
open Source.Token (word mark)

/-- White space of the module grammar: every blank but U+0085, and the byte order mark. Which texts
are import declarations is said by the grammar, so this class is part of what is demanded of
elimination. The class that elimination itself skips and trims is `isBlank`, and statements about
what is read off text that is written with blanks use that one. -/
def isSpace (c : Char) : Bool :=
  (isBlank c && c.toNat != 0x85) || c.toNat == 0xFEFF

/-- A line terminator of the module grammar. -/
def endsLine (c : Char) : Bool :=
  c == '\n' || c == '\r' || c.toNat == 0x2028 || c.toNat == 0x2029

/-- A character that may stand between two tokens. -/
def isGap (g : Glyph) : Bool :=
  g.region == .comment || (g.region == .code && isSpace g.char)

/-- A string between single or double quotes. -/
def IsLiteral (glyphs : List Glyph) : Prop :=
  ∃ quote inside, (quote = '\'' ∨ quote = '"') ∧
    glyphs = ⟨quote, .string⟩ :: (inside ++ [⟨quote, .string⟩]) ∧
    run (.quoted quote) inside = some (.quoted quote)

/-- `Written tokens glyphs` says that `glyphs` write `tokens`, with comments and white space around
them. The original name of a renamed binding may be a string. -/
inductive Written : List Token → List Glyph → Prop where
  | nil : Written [] []
  | gap {g tokens glyphs} : isGap g = true → Written tokens glyphs → Written tokens (g :: glyphs)
  | word {name tokens glyphs} : isName name = true → boundary (chars glyphs).head? = true →
      Written tokens glyphs → Written (.word name :: tokens) (coded name ++ glyphs)
  | mark {c tokens glyphs} : isMark c = true → Written tokens glyphs →
      Written (.mark c :: tokens) (⟨c, .code⟩ :: glyphs)
  | original {name literal tokens glyphs} : IsLiteral literal →
      Written (.word asWord :: tokens) glyphs →
      Written (.word name :: .word asWord :: tokens) (literal ++ glyphs)

/-- `IsImport glyphs names` says that `glyphs` are an import declaration that binds `names`. -/
inductive IsImport : List Glyph → List (List Char) → Prop where
  | intro {clause : Option Clause} {head literal ending : List Glyph} :
      Written (.word importWord :: clauseTokens clause) head → head.head? = some ⟨'i', .code⟩ →
      IsLiteral literal →
      (ending = [] ∨ ∃ gap, (∀ g ∈ gap, isGap g = true) ∧ ending = gap ++ [⟨';', .code⟩]) →
      IsImport (head ++ (literal ++ ending)) (clause.elim [] Clause.names)

/-- `StatementStart front` says that a statement of a module may start behind `front`: no bracket is
open, and up to comments and white space `front` is empty or ends with a semicolon, a closing brace
or a line. -/
def StatementStart (front : List Glyph) : Prop :=
  (scan (chars front)).isSome = true ∧
    ∃ code gap, front = code ++ gap ∧ (∀ g ∈ gap, isGap g = true) ∧
      (code = [] ∨ code.getLast? = some ⟨';', .code⟩ ∨ code.getLast? = some ⟨'}', .code⟩ ∨
        (chars gap).any endsLine = true)

/-- An import declaration of a balanced source, at the start of a statement. -/
structure Site (text : List Char) where
  front : List Glyph
  declaration : List Glyph
  behind : List Glyph
  names : List (List Char)
  scanned : scan text = some (front ++ (declaration ++ behind))
  starts : StatementStart front
  isImport : IsImport declaration names

/-- The text of the declaration is missing from the output. -/
def Site.Missing {text : List Char} (site : Site text) : Prop :=
  ¬ chars site.declaration <:+: eliminateChars text

/-- A position of a text that stands in an import declaration. -/
def InImport (glyphs : List Glyph) (position : Nat) : Prop :=
  ∃ front declaration behind names, glyphs = front ++ (declaration ++ behind) ∧
    StatementStart front ∧ IsImport declaration names ∧ front.length ≤ position ∧
    position < front.length + declaration.length

/-- `UsedAt glyphs name position` says that `name` stands at a position of classified text as an
identifier of code, outside of strings, comments and import declarations. -/
def UsedAt (glyphs : List Glyph) (name : List Char) (position : Nat) : Prop :=
  ∃ front word behind, glyphs = front ++ (word ++ behind) ∧ front.length = position ∧
    chars word = name ∧ isName name = true ∧ (∀ g ∈ word, g.region = .code) ∧
    boundary (chars front).getLast? = true ∧ boundary (chars behind).head? = true ∧
    ¬ InImport glyphs position

/-- `Classified text glyphs` says that `glyphs` are the characters of `text` with their regions. The
text need not be balanced. -/
def Classified (text : List Char) (glyphs : List Glyph) : Prop :=
  chars glyphs = text ∧ Readable .code glyphs

/-- `Uses text name` says that `text` uses `name`. -/
def Uses (text name : List Char) : Prop :=
  ∃ glyphs position, Classified text glyphs ∧ UsedAt glyphs name position

/-- `IsListed text name` says that one of the declarations that elimination drops from `text` lists
`name`. -/
def IsListed (text name : List Char) : Prop :=
  ∃ glyphs, scan text = some glyphs ∧
    ∃ declaration ∈ dropped (foldAll glyphs), name ∈ declaration.names

/-- `Overlooked text name` says that the output for `text` uses `name` in text that is taken for a
declaration, or anywhere while no dropped declaration lists it. -/
def Overlooked (text name : List Char) : Prop :=
  ∃ glyphs position, Classified (eliminateChars text) glyphs ∧ UsedAt glyphs name position ∧
    (covers (segments glyphs) position = true ∨ ¬ IsListed text name)

/-- A name that a dropped declaration lists is used in text that is taken for a declaration, if it
is used at all. -/
theorem covers_of_isListed {text name : List Char} {output : List Glyph} {position : Nat}
    (hlisted : IsListed text name) (hclassified : Classified (eliminateChars text) output)
    (hused : UsedAt output name position) : covers (segments output) position = true := by
  obtain ⟨glyphs, hscan, declaration, hdeclaration, hname⟩ := hlisted
  obtain ⟨final, hfinal, hreadable, -, hdropped⟩ :=
    exists_final (readable_of_scan (scan_foldAll (scan_chars hscan)))
  obtain ⟨hchars, houtput⟩ := hclassified
  have hsame : chars output = chars final := by rw [hchars, hfinal, eliminateChars_of_scan hscan]
  obtain rfl : output = final := houtput.unique hreadable hsame
  obtain ⟨front, word, behind, rfl, rfl, rfl, hisName, -, hfront, hbehind, -⟩ := hused
  by_contra hcovers
  rw [Bool.not_eq_true] at hcovers
  -- the name would stand between the declarations of the output
  have hstands : StandsIn none (chars word) (body (segments (front ++ (word ++ behind)))) :=
    standsIn_of_not_covers hisName (by simpa using hfront) hbehind id hcovers
  exact hdropped declaration hdeclaration _ hname (mem_identifiers_iff.2 ⟨hisName, hstands⟩)

/-- If the text of an import declaration is missing from the output, the output uses none of its
names, exactly when none of them is overlooked. -/
theorem removal_sound_iff {text : List Char} (site : Site text) :
    (site.Missing → ∀ name ∈ site.names, ¬ Uses (eliminateChars text) name) ↔
      (site.Missing → ∀ name ∈ site.names, ¬ Overlooked text name) := by
  constructor
  · intro hsound hmissing name hname hoverlooked
    obtain ⟨output, position, hclassified, hused, -⟩ := hoverlooked
    exact hsound hmissing name hname ⟨output, position, hclassified, hused⟩
  · intro hnone hmissing name hname huses
    obtain ⟨output, position, hclassified, hused⟩ := huses
    refine hnone hmissing name hname ⟨output, position, hclassified, hused, ?_⟩
    by_cases hlisted : IsListed text name
    · exact .inl (covers_of_isListed hlisted hclassified hused)
    · exact .inr hlisted

section Unsound

/-- The characters of an import with a comment in its clause. -/
def commented : List Glyph :=
  coded importWord ++ (⟨' ', .code⟩ :: ⟨'{', .code⟩ :: ⟨' ', .code⟩ :: (coded ['a'] ++
    (⟨' ', .code⟩ :: ⟨'/', .comment⟩ :: ⟨'/', .comment⟩ :: ⟨' ', .comment⟩ :: ⟨'b', .comment⟩ ::
      ⟨'\n', .code⟩ :: ⟨'}', .code⟩ :: ⟨' ', .code⟩ :: (coded fromWord ++ [⟨' ', .code⟩]))))

/-- An import with a comment in its clause writes its tokens. -/
theorem written_commented :
    Written (word importWord :: clauseTokens (some (.bindings (.list [.plain ['a']] false))))
      commented := by
  have hfrom : Written [word fromWord] (coded fromWord ++ [⟨' ', .code⟩]) :=
    .word (by decide) (by decide) (.gap (by decide) .nil)
  have hclosing : Written [mark '}', word fromWord]
      (⟨'\n', .code⟩ :: ⟨'}', .code⟩ :: ⟨' ', .code⟩ :: (coded fromWord ++ [⟨' ', .code⟩])) :=
    .gap (by decide) (.mark (by decide) (.gap (by decide) hfrom))
  refine .word (by decide) (by decide) (.gap (by decide) (.mark (by decide) (.gap (by decide) ?_)))
  exact .word (by decide) (by decide) (.gap (by decide) (.gap (by decide) (.gap (by decide)
    (.gap (by decide) (.gap (by decide) hclosing)))))

/-- A comment in its clause hides the name that an import binds, and the output calls it without the
import. -/
theorem removal_unsound :
    ∃ (text : List Char) (site : Site text), site.Missing ∧
      ∃ name ∈ site.names, Uses (eliminateChars text) name := by
  have hliteral : IsLiteral (quoted ['x']) := ⟨'\'', [⟨'x', .string⟩], .inl rfl, rfl, by decide⟩
  have himport : IsImport (commented ++ (quoted ['x'] ++ [⟨';', .code⟩])) [['a']] :=
    .intro written_commented rfl hliteral (.inr ⟨[], by simp, rfl⟩)
  let text := "import \x7b a // b\n\x7d from 'x';\na();\n".toList
  let site : Site text := {
    front := []
    declaration := commented ++ (quoted ['x'] ++ [⟨';', .code⟩])
    behind := coded "\na();\n".toList
    names := [['a']]
    scanned := by decide +kernel
    starts := ⟨by decide, [], [], rfl, by simp, .inl rfl⟩
    isImport := himport }
  have houtput : eliminateChars text = "a();\n".toList := by decide +kernel
  refine ⟨text, site, ?_, ['a'], List.mem_singleton_self _, ?_⟩
  · show ¬ chars (commented ++ (quoted ['x'] ++ [⟨';', .code⟩])) <:+: eliminateChars text
    rw [houtput]
    decide
  · rw [houtput]
    refine ⟨coded "a();\n".toList, 0, ⟨chars_coded _, .code, by decide, rfl⟩, ?_⟩
    refine ⟨[], coded ['a'], coded "();\n".toList, rfl, rfl, rfl, by decide, by decide, rfl,
      by decide, ?_⟩
    -- no import starts in the output, as it has no `i`
    rintro ⟨front, declaration, behind, names, hsplit, -, ⟨-, hhead, -, -⟩, -⟩
    have hmem : (⟨'i', .code⟩ : Glyph) ∈ coded "a();\n".toList := by
      rw [hsplit]
      exact List.mem_append_right _ (List.mem_append_left _ (List.mem_append_left _
        (List.mem_of_head? hhead)))
    revert hmem
    decide

end Unsound

end MiniProgram.Module
