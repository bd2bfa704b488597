/-!
# Paths

A path is kept as it is written. Two paths name the same place when their components agree: doubled
and trailing separators and single dots do not count, except for a dot at the start. A double dot
is a component of its own, because what it leads to depends on the file tree.
-/

namespace MiniProgram

/-- A path as it is written. -/
structure Path where
  text : String
  deriving DecidableEq, Repr, Inhabited

/-- A component of a path. -/
inductive Component where
  | root
  | current
  | parent
  | normal (name : String)
  deriving DecidableEq, Repr

namespace Component

/-- The place of a kind of component in the order of components. -/
def rank : Component → Nat
  | .root => 0
  | .current => 1
  | .parent => 2
  | .normal _ => 3

/-- `a.before b` orders components by kind, and names by their characters. -/
def before : Component → Component → Bool
  | .normal a, .normal b => a < b
  | a, b => a.rank < b.rank

end Component

namespace Path

/-- The parts of a path between separators. -/
def parts (path : Path) : List (List Char) :=
  path.text.toList.splitOn '/'

/-- A part that is no component, unless a path starts with it. -/
def isSilent (part : List Char) : Bool :=
  part = [] || part = ['.']

/-- The component that a part stands for. -/
def component (part : List Char) : Component :=
  if part = ['.', '.'] then .parent else .normal (String.ofList part)

/-- A path that starts at the root. -/
def isAbsolute (path : Path) : Bool :=
  path.text.toList.head? == some '/'

/-- The components of a path. -/
def components (path : Path) : List Component :=
  match path.parts with
  | [] => []
  | first :: rest =>
    let body := (rest.filter fun part => !isSilent part).map component
    if path.isAbsolute then .root :: body
    else if first = [] then body
    else if first = ['.'] then .current :: body
    else component first :: body

/-- `path.startsWith base` says that the components of `base` come first in `path`. -/
def startsWith (path base : Path) : Bool :=
  base.components.isPrefixOf path.components

/-- `path.same other` says that both paths have the same components. -/
def same (path other : Path) : Bool :=
  path.components == other.components

/-- `precedes a b` orders lists of components by their first difference. -/
def precedes : List Component → List Component → Bool
  | _, [] => false
  | [], _ :: _ => true
  | a :: as, b :: bs => if a = b then precedes as bs else a.before b

/-- A path that ends with a separator. -/
def hasTrailingSeparator (path : Path) : Bool :=
  path.text.toList.getLast? == some '/'

/-- `base.join path` is `path` as seen from `base`. -/
def join (base path : Path) : Path :=
  if path.isAbsolute then path
  else if base.text = "" || base.hasTrailingSeparator then ⟨base.text ++ path.text⟩
  else ⟨base.text ++ "/" ++ path.text⟩

/-- `base / name` joins a name to a path. -/
instance : HDiv Path String Path where
  hDiv base name := base.join ⟨name⟩

/-- Writes parts with separators between them. -/
def ofParts : List (List Char) → Path
  | [[]] => ⟨"/"⟩
  | parts => ⟨String.ofList (['/'].intercalate parts)⟩

/-- `parentsOf first before` lists the paths above the one with the parts `first` and, in reverse
order, `before`. -/
def parentsOf (first : List Char) : List (List Char) → List Path
  | [] => if first = [] then [] else [⟨""⟩]
  | part :: before =>
    if isSilent part then parentsOf first before
    else ofParts (first :: (before.dropWhile isSilent).reverse) :: parentsOf first before

/-- The paths above a path, the nearest one first. The root and the empty path have none. -/
def parents (path : Path) : List Path :=
  match path.parts with
  | [] => []
  | first :: rest => parentsOf first rest.reverse

/-- The path without its last component. -/
def parent? (path : Path) : Option Path :=
  path.parents.head?

/-- The last component of a path, if it is a name. -/
def fileName? (path : Path) : Option String :=
  match path.components.getLast? with
  | some (.normal name) => some name
  | _ => none

/-- What follows the last dot of the file name. A name whose only dot is its first character has no
extension. -/
def extension? (path : Path) : Option String :=
  path.fileName?.bind fun name =>
    match name.toList.reverse.dropWhile (· ≠ '.') with
    | [] | [_] => none
    | _ :: _ :: _ => some (String.ofList (name.toList.reverse.takeWhile (· ≠ '.')).reverse)

/-- The part of a path that is one of its components. -/
def ofComponent : Component → Path
  | .root => ⟨"/"⟩
  | .current => ⟨"."⟩
  | .parent => ⟨".."⟩
  | .normal name => ⟨name⟩

/-- Where `absolute` starts from. Exactly two leading separators are kept. -/
def origin (current path : Path) : Path :=
  match path.text.toList with
  | '/' :: '/' :: '/' :: _ => ⟨"/"⟩
  | '/' :: '/' :: _ => ⟨"//"⟩
  | '/' :: _ => ⟨"/"⟩
  | _ => current

/-- `absolute current path` is the path from the root to what `path` names in the directory
`current`. Double dots stay, and so does a trailing separator. -/
def absolute (current path : Path) : Path :=
  let steps := path.components.filter fun step => step != .root && step != .current
  let place := steps.foldl (fun place step => place.join (ofComponent step)) (origin current path)
  if path.hasTrailingSeparator && !place.hasTrailingSeparator then ⟨place.text ++ "/"⟩ else place

end Path

end MiniProgram
