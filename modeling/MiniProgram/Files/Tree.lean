import MiniProgram.Files.Fault
import MiniProgram.Path

/-!
# File trees

A file tree maps locations to entries. A location lists the names on the way down from the root, so
it holds no dots and no separators, and each entry has one location. A path leads to a location when
it is followed from the root or from the current directory of the tree, one part after the other:
every part but the last has to lead to a directory, and a double dot leads back up.

The operations are those of a POSIX system, without links and without owners. A directory is
created by `makeDirectory` below one that exists, and by `createDirectories` together with all the
directories that are missing above it.
-/

namespace MiniProgram

/-- A place in a file tree: the names on the way from the root. -/
abbrev Location := List String

/-- What stands at a location. -/
inductive Entry where
  | directory
  | file (content : ByteArray) (executable : Bool)

/-- A file tree with its current directory. The root is a directory that is not listed. -/
structure FileTree where
  entries : List (Location × Entry)
  current : Location

/-- What the last part of a path stands for when something is to be made there: an entry of a
directory, or a directory that is not called by its name. -/
inductive Target where
  | named (location : Location) (trailing : Bool)
  | unnamed

namespace FileTree

/-- The greatest number of bytes in a name. -/
def nameLimit : Nat := 255

/-- The number of bytes that a path stays below. -/
def pathLimit : Nat := 4096

/-- What stands at a location. -/
def get? (tree : FileTree) (location : Location) : Option Entry :=
  if location = [] then some .directory else tree.entries.lookup location

/-- `put tree location entry` sets what stands at a location. -/
def put (tree : FileTree) (location : Location) (entry : Entry) : FileTree :=
  { tree with
    entries :=
      if (tree.entries.lookup location).isSome then
        tree.entries.map fun old => if old.1 = location then (location, entry) else old
      else tree.entries ++ [(location, entry)] }

/-- Setting what stands at a listed location changes what is found there and nowhere else. -/
theorem lookup_map_replace (entries : List (Location × Entry)) (location other : Location)
    (entry : Entry) (listed : (entries.lookup location).isSome) :
    (entries.map fun old => if old.1 = location then (location, entry) else old).lookup other =
      if other = location then some entry else entries.lookup other := by
  induction entries with
  | nil => simp at listed
  | cons old rest ih =>
    obtain ⟨key, value⟩ := old
    by_cases hkey : key = location
    · by_cases hother : other = location
      · simp [hkey, hother]
      · have hne : (other == location) = false := by simpa using hother
        by_cases hrest : (rest.lookup location).isSome
        · simp [List.lookup_cons, hkey, hother, hne, ih hrest]
        · have absent : ∀ old ∈ rest, old.1 ≠ location := by
            intro old member same
            have := List.lookup_eq_none_iff.1 (Option.not_isSome_iff_eq_none.1 hrest) old member
            simp [same] at this
          have same : (rest.map fun old => if old.1 = location then (location, entry) else old) =
              rest := by
            refine (List.map_congr_left fun old member => ?_).trans (List.map_id rest)
            simp [absent old member]
          simp [List.lookup_cons, hkey, hother, hne, same]
    · have hne : (location == key) = false := by simpa using fun h => hkey h.symm
      have listed : (rest.lookup location).isSome := by simpa [List.lookup_cons, hne] using listed
      have ih := ih listed
      by_cases hsame : other = key
      · simp [hsame, hkey]
      · have : (other == key) = false := by simpa using hsame
        simp [List.lookup_cons, hkey, this, ih]

/-- What stands at a location after a location other than the root was set. -/
theorem get?_put (tree : FileTree) {location : Location} (below : location ≠ []) (entry : Entry)
    (other : Location) :
    (tree.put location entry).get? other =
      if other = location then some entry else tree.get? other := by
  unfold get? put
  by_cases hroot : other = []
  · simp [hroot, Ne.symm below]
  · simp only [hroot, if_false]
    split
    · next listed => exact lookup_map_replace tree.entries location other entry listed
    · next unlisted =>
      have absent := Option.not_isSome_iff_eq_none.1 unlisted
      rw [List.lookup_append]
      by_cases hsame : other = location
      · simp [hsame, absent]
      · simp [hsame, List.lookup_cons, show (other == location) = false by simpa using hsame]

/-- `remove tree location` removes what stands at a location and below it. -/
def remove (tree : FileTree) (location : Location) : FileTree :=
  { tree with entries := tree.entries.filter fun entry => !location.isPrefixOf entry.1 }

/-- The names in a directory, in the order in which they were made. -/
def children (tree : FileTree) (location : Location) : List String :=
  tree.entries.filterMap fun entry =>
    match entry.1.getLast? with
    | some name => if entry.1 = location ++ [name] then some name else none
    | none => none

/-- The location above another one. The root is above itself. -/
def above (location : Location) : Location :=
  location.dropLast

/-- `step tree place part` follows one part of a path. -/
def step (tree : FileTree) (place : Location) (part : List Char) : Except FileFault Location :=
  match tree.get? place with
  | none => .error .notFound
  | some (.file _ _) => .error .notDirectory
  | some .directory =>
    if Path.isSilent part then .ok place
    else if part = ['.', '.'] then .ok (above place)
    else if nameLimit < (String.ofList part).utf8ByteSize then .error .nameTooLong
    else
      match tree.get? (place ++ [String.ofList part]) with
      | none => .error .notFound
      | some _ => .ok (place ++ [String.ofList part])

/-- `follow tree place parts` follows the parts of a path. -/
def follow (tree : FileTree) (place : Location) : List (List Char) → Except FileFault Location
  | [] => .ok place
  | part :: rest =>
    match tree.step place part with
    | .error fault => .error fault
    | .ok next => follow tree next rest

/-- Where a path starts. -/
def start (tree : FileTree) (path : Path) : Location :=
  if path.isAbsolute then [] else tree.current

/-- The fault of a path that leads nowhere in any tree. -/
def pathFault? (path : Path) : Option FileFault :=
  if path.text.toList.contains '\x00' then some .nulInPath
  else if path.text = "" then some .notFound
  else if pathLimit ≤ path.text.utf8ByteSize then some .nameTooLong
  else none

/-- `locate tree path` is the location that a path leads to. -/
def locate (tree : FileTree) (path : Path) : Except FileFault Location :=
  match pathFault? path with
  | some fault => .error fault
  | none => tree.follow (tree.start path) path.parts

/-- `find tree path` is what stands where a path leads to. -/
def find (tree : FileTree) (path : Path) : Except FileFault Entry :=
  match tree.locate path with
  | .error fault => .error fault
  | .ok location =>
    match tree.get? location with
    | none => .error .notFound
    | some entry => .ok entry

/-- A path that leads to a directory. -/
def isDirectory (tree : FileTree) (path : Path) : Bool :=
  match tree.find path with
  | .ok .directory => true
  | _ => false

/-- A path that leads to a file. -/
def isFile (tree : FileTree) (path : Path) : Bool :=
  match tree.find path with
  | .ok (.file _ _) => true
  | _ => false

/-- The bytes of a file. -/
def read (tree : FileTree) (path : Path) : Except FileFault ByteArray :=
  match tree.find path with
  | .error fault => .error fault
  | .ok .directory => .error .isDirectory
  | .ok (.file content _) => .ok content

/-- The text of a file. -/
def readText (tree : FileTree) (path : Path) : Except FileFault String :=
  match tree.read path with
  | .error fault => .error fault
  | .ok content =>
    match String.fromUTF8? content with
    | none => .error .invalidText
    | some text => .ok text

/-- The names in the directory that a path leads to. -/
def names (tree : FileTree) (path : Path) : List String :=
  match tree.locate path with
  | .error _ => []
  | .ok location =>
    match tree.get? location with
    | some .directory => tree.children location
    | _ => []

/-- `target tree path` is where something would be made at a path. The directory above has to be
there. -/
def target (tree : FileTree) (path : Path) : Except FileFault Target :=
  match pathFault? path with
  | some fault => .error fault
  | none =>
    match path.parts.reverse.dropWhile (· = []) with
    | [] => .ok .unnamed
    | last :: before =>
      match tree.follow (tree.start path) before.reverse with
      | .error fault => .error fault
      | .ok place =>
        match tree.get? place with
        | none => .error .notFound
        | some (.file _ _) => .error .notDirectory
        | some .directory =>
          if last = ['.'] ∨ last = ['.', '.'] then .ok .unnamed
          else if nameLimit < (String.ofList last).utf8ByteSize then .error .nameTooLong
          else .ok (.named (place ++ [String.ofList last]) path.hasTrailingSeparator)

/-- `makeDirectory tree path` makes a directory where nothing stands yet. -/
def makeDirectory (tree : FileTree) (path : Path) : Except FileFault FileTree :=
  match tree.target path with
  | .error fault => .error fault
  | .ok .unnamed => .error .alreadyExists
  | .ok (.named location _) =>
    match tree.get? location with
    | some _ => .error .alreadyExists
    | none => .ok (tree.put location .directory)

/-- `write tree path content` sets the content of a file, which is made if nothing stands there. -/
def write (tree : FileTree) (path : Path) (content : ByteArray) : Except FileFault FileTree :=
  match tree.target path with
  | .error fault => .error fault
  | .ok .unnamed => .error .isDirectory
  | .ok (.named location trailing) =>
    if trailing then .error .isDirectory
    else
      match tree.get? location with
      | some .directory => .error .isDirectory
      | some (.file _ executable) => .ok (tree.put location (.file content executable))
      | none => .ok (tree.put location (.file content false))

/-- `settle tree path attempt` is the outcome of an attempt to make a directory. It does not matter
if the directory is there already. -/
def settle (tree : FileTree) (path : Path) (attempt : Except FileFault FileTree) :
    Except FileFault Unit × FileTree :=
  match attempt with
  | .ok next => (.ok (), next)
  | .error fault => (if tree.isDirectory path then .ok () else .error fault, tree)

/-- `createAll tree paths` makes the first directory of a list, in which each path is followed by
the one above it. Where that one is missing it is made first. -/
def createAll (tree : FileTree) : List Path → Except FileFault Unit × FileTree
  | [] => (.ok (), tree)
  | path :: rest =>
    match tree.makeDirectory path with
    | .error .notFound =>
      match createAll tree rest with
      | (.error fault, next) => (.error fault, next)
      | (.ok (), next) => next.settle path (next.makeDirectory path)
    | attempt => tree.settle path attempt

/-- `createDirectories tree path` makes a directory and those that are missing above it. The
directories that were made before one fails remain. -/
def createDirectories (tree : FileTree) (path : Path) : Except FileFault Unit × FileTree :=
  tree.createAll ((path :: path.parents).filter fun above => above.text ≠ "")

end FileTree

end MiniProgram
