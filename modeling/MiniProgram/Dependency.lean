import MiniProgram.Path
import MiniProgram.Table

/-!
# Dependencies of an app

A compiler says which modules an app depends on. The module that replaces the app imports each of
them for its side effects, one statement a line, in the order of the table. A backslash in a module
name is doubled, so that it stands for itself in the string of the statement.
-/

namespace MiniProgram

/-- The modules that an app depends on. The flag tells how a compiler came across the module. -/
abbrev Dependencies := Table Bool

namespace Dependency

/-- `doubled text` writes every backslash twice. -/
def doubled : List Char → List Char
  | [] => []
  | c :: rest => if c = '\\' then '\\' :: '\\' :: doubled rest else c :: doubled rest

/-- `doubleBackslashes text` writes every backslash of a text twice. -/
def doubleBackslashes (text : String) : String :=
  String.ofList (doubled text.toList)

/-- The statement that imports a module for its side effects. -/
def statement (name : String) : String :=
  "import '" ++ doubleBackslashes name ++ "';"

/-- The import statements of all dependencies, one a line. -/
def statements (dependencies : Dependencies) : String :=
  "\n".intercalate (dependencies.keys.map statement)

/-- The text of the module that replaces an app. -/
def moduleText (resource : Path) (dependencies : Dependencies) : String :=
  "/* Generated by JSX2MP AppLoader, sourceFile: " ++ resource.text ++ ". */\n" ++
    statements dependencies

end Dependency

end MiniProgram
