import MiniProgram.Proofs.Files.Making

/-!
# Trees side by side

`Beside made folder tree other` compares a tree with one in which somebody else has worked in a
folder: what stands elsewhere is the same, but for directories that were made on the way to the
folder. On both trees the same happens apart from the folder. Directories are made alike
(`createDirectories_beside`), and files are read alike (`find_beside`), with one exception: where
nothing stands in the way of a path because nothing is there at all, a directory that was made can
let a name be looked up that is too long.
-/

namespace MiniProgram.FileTree

/-- Neither of two places is inside the other. -/
def Apart (location other : Location) : Prop :=
  ¬ location <+: other ∧ ¬ other <+: location

/-- Whether two places are apart is decided by comparing them as prefixes. -/
instance (location other : Location) : Decidable (Apart location other) :=
  inferInstanceAs (Decidable (_ ∧ _))

/-- `other` is `tree` with another content of a folder, and more directories on the way to it. Those
are at places in `made`. -/
structure Beside (made : Location → Prop) (folder : Location) (tree other : FileTree) : Prop where
  current_eq : other.current = tree.current
  same : ∀ location, ¬ folder <+: location →
    other.get? location = tree.get? location ∨
      made location ∧ location <+: folder ∧ tree.get? location = none ∧
        other.get? location = some .directory

variable {made : Location → Prop} {folder place location : Location} {tree other next : FileTree}
  {path : Path} {name : String} {names : List String} {part : List Char}
  {parts : List (List Char)} {dotted : Bool} {entry : Entry}

section Besides

/-- Being apart holds in both directions. -/
theorem Apart.symm (h : Apart place location) : Apart location place :=
  ⟨h.2, h.1⟩

/-- A place that leads on to one apart from a folder is not in the folder. -/
theorem Apart.not_prefix (h : Apart folder location) (hplace : place <+: location) :
    ¬ folder <+: place :=
  fun hfolder => h.1 (hfolder.trans hplace)

/-- What is inside of a place apart from a folder is apart from the folder. -/
theorem Apart.append (h : Apart folder place) (names : List String) :
    Apart folder (place ++ names) := by
  refine ⟨fun hfolder => ?_, fun hplace => h.2 ((List.prefix_append _ _).trans hplace)⟩
  rcases List.prefix_or_prefix_of_prefix hfolder (List.prefix_append place names) with hin | hout
  · exact h.1 hin
  · exact h.2 hout

/-- Every tree is beside itself. -/
theorem Beside.refl (made : Location → Prop) (folder : Location) (tree : FileTree) :
    Beside made folder tree tree :=
  ⟨rfl, fun _ _ => .inl rfl⟩

/-- What is beside a tree that is beside another one is beside that one. -/
theorem Beside.trans (h : Beside made folder tree other) (h' : Beside made folder other next) :
    Beside made folder tree next := by
  refine ⟨h'.current_eq.trans h.current_eq, fun l hl => ?_⟩
  rcases h.same l hl with hsame | ⟨hmade, hway, hnone, hdirectory⟩
  · rw [← hsame]
    exact h'.same l hl
  · rcases h'.same l hl with hsame | ⟨-, -, hnone', -⟩
    · exact .inr ⟨hmade, hway, hnone, hsame.trans hdirectory⟩
    · rw [hdirectory] at hnone'
      cases hnone'

/-- Nothing else changes when something is set in the folder. -/
theorem beside_put (hfolder : folder <+: place) (hne : place ≠ []) (entry : Entry) :
    Beside made folder tree (tree.put place entry) := by
  refine ⟨rfl, fun l hl => .inl ?_⟩
  rw [get?_put tree hne, if_neg]
  rintro rfl
  exact hl hfolder

/-- Apart from the folder all is the same. -/
theorem Beside.get?_eq (h : Beside made folder tree other) (hapart : Apart folder location) :
    other.get? location = tree.get? location := by
  rcases h.same location hapart.1 with hsame | ⟨-, hway, -⟩
  · exact hsame
  · exact absurd hway hapart.2

/-- A path starts at the same place in both trees. -/
theorem Beside.start_eq (h : Beside made folder tree other) (path : Path) :
    other.start path = tree.start path := by
  rw [start, start, h.current_eq]

/-- A plain path leads to the same place in both trees. -/
theorem Beside.placeOf_eq (h : Beside made folder tree other) (path : Path) :
    other.placeOf path = tree.placeOf path := by
  rw [placeOf, placeOf, h.start_eq]

/-- A directory outside of the folder is the same one. -/
theorem Beside.directory (h : Beside made folder tree other) (hfolder : ¬ folder <+: location)
    (hdirectory : tree.get? location = some .directory) :
    other.get? location = some .directory := by
  rcases h.same location hfolder with hsame | ⟨-, -, hnone, -⟩
  · rw [hsame, hdirectory]
  · rw [hdirectory] at hnone
    cases hnone

/-- Both trees change alike when the same is set in both. -/
theorem Beside.put (h : Beside made folder tree other) (hne : place ≠ []) (entry : Entry) :
    Beside made folder (tree.put place entry) (other.put place entry) := by
  refine ⟨h.current_eq, fun l hl => ?_⟩
  rw [get?_put tree hne, get?_put other hne]
  by_cases hplace : l = place
  · simp [hplace]
  · simpa [hplace] using h.same l hl

/-- A directory that is there in the other tree only may be made. -/
theorem Beside.put_left (h : Beside made folder tree other) (hne : place ≠ [])
    (hdirectory : other.get? place = some .directory) :
    Beside made folder (tree.put place .directory) other := by
  refine ⟨h.current_eq, fun l hl => ?_⟩
  rw [get?_put tree hne]
  by_cases hplace : l = place
  · simp [hplace, hdirectory]
  · simpa [hplace] using h.same l hl

/-- The directories that were made on the way to the folder are there. -/
theorem Beside.marked (h : Beside (fun _ => True) folder tree other) :
    Beside (fun location => other.get? location = some .directory) folder tree other :=
  ⟨h.current_eq, fun l hl => (h.same l hl).imp_right fun ⟨_, hway, hnone, hdirectory⟩ =>
    ⟨hdirectory, hway, hnone, hdirectory⟩⟩

/-- Two trees with the same current directory, where the same stands at every place. -/
def Same (tree other : FileTree) : Prop :=
  other.current = tree.current ∧ ∀ location, other.get? location = tree.get? location

/-- Work in two folders that are apart can be done in either order. In `left` and in `right` only
one of the works has been done, and in `first` and `second` both have, one on `left` and the other
one on `right`. -/
theorem same_of_beside {folder' : Location} {left right first second : FileTree}
    (hapart : Apart folder folder')
    (hleft : Beside (fun location => right.get? location = some .directory) folder' left second)
    (hright : Beside (fun location => left.get? location = some .directory) folder right first)
    (hsecond : Beside (fun _ => True) folder right second)
    (hfirst : Beside (fun _ => True) folder' left first) : first.Same second := by
  refine ⟨hleft.current_eq.trans hfirst.current_eq.symm, fun location => ?_⟩
  by_cases hin : folder <+: location
  · obtain ⟨names, rfl⟩ := hin
    have houtside := hapart.symm.append names
    rw [hleft.get?_eq houtside, hfirst.get?_eq houtside]
  by_cases hin' : folder' <+: location
  · obtain ⟨names, rfl⟩ := hin'
    have houtside := hapart.append names
    rw [hright.get?_eq houtside, hsecond.get?_eq houtside]
  -- on the way to one of the folders a directory may have been made by either work
  have hleft := hleft.same location hin'
  have hright := hright.same location hin
  have hsecond := hsecond.same location hin
  have hfirst := hfirst.same location hin'
  grind

end Besides

section Reading

/-- What is found by following parts. -/
def look (tree : FileTree) (place : Location) (parts : List (List Char)) : Except FileFault Entry :=
  match tree.follow place parts with
  | .error fault => .error fault
  | .ok location =>
    match tree.get? location with
    | none => .error .notFound
    | some entry => .ok entry

/-- Looking through parts takes a step with the first one. -/
theorem look_cons (tree : FileTree) (place : Location) (part : List Char)
    (parts : List (List Char)) :
    tree.look place (part :: parts) =
      match tree.step place part with
      | .error fault => .error fault
      | .ok next => tree.look next parts := by
  rw [look, follow]
  cases tree.step place part <;> rfl

/-- Nothing is found where nothing stands, whatever parts follow. -/
theorem look_of_none (hnone : tree.get? place = none) :
    tree.look place parts = .error .notFound := by
  cases parts with
  | nil => simp [look, follow, hnone]
  | cons part parts => simp [look_cons, step, hnone]

/-- Following a silent part leads nowhere. -/
theorem look_cons_of_silent (hsilent : Path.isSilent part = true)
    (hdirectory : tree.get? place = some .directory) :
    tree.look place (part :: parts) = tree.look place parts := by
  rw [look_cons, step_of_silent hsilent hdirectory]

/-- A name is looked up in a directory. -/
theorem look_cons_of_name (hname : Path.isSilent part = false) (hdots : part ≠ ['.', '.'])
    (hdirectory : tree.get? place = some .directory) :
    tree.look place (part :: parts) =
      if nameLimit < (String.ofList part).utf8ByteSize then .error .nameTooLong
      else tree.look (place ++ [String.ofList part]) parts := by
  rw [look_cons, step, hdirectory]
  simp only [hname, hdots, if_false, Bool.false_eq_true]
  by_cases hlong : nameLimit < (String.ofList part).utf8ByteSize
  · rw [if_pos hlong, if_pos hlong]
  · rw [if_neg hlong, if_neg hlong]
    cases hnext : tree.get? (place ++ [String.ofList part]) with
    | none => rw [look_of_none hnext]
    | some entry => rfl

/-- Something else than a directory leads nowhere. -/
theorem look_cons_congr (hsame : other.get? place = tree.get? place)
    (hplain : tree.get? place ≠ some .directory) :
    other.look place (part :: parts) = tree.look place (part :: parts) := by
  rw [look_cons, look_cons, step, step, hsame]
  cases hentry : tree.get? place with
  | none => rfl
  | some entry =>
      cases entry with
      | file content executable => rfl
      | directory => exact absurd hentry hplain

/-- What stands where a path leads to is found by following its parts. -/
theorem find_eq_look (tree : FileTree) (path : Path) :
    tree.find path = match pathFault? path with
      | some fault => .error fault
      | none => tree.look (tree.start path) path.parts := by
  unfold find locate look
  cases pathFault? path <;> rfl

/-- A file with too long a name is not found where its directory is missing, and its name is too
long where the directory is there. -/
theorem readText_of_long {base : Path} {word : String}
    (hstem : base.stem = [part]) (hpart : Path.isSilent part = false) (hdots : part ≠ ['.', '.'])
    (hshort : (String.ofList part).utf8ByteSize ≤ nameLimit)
    (hword : Path.isFileName word = true) (hlong : nameLimit < word.utf8ByteSize)
    (hvalid : pathFault? (base / word) = none)
    (hstart : tree.get? (tree.start base) = some .directory) :
    (tree.get? (tree.start base ++ [String.ofList part]) = none →
        tree.readText (base / word) = .error .notFound) ∧
      (tree.get? (tree.start base ++ [String.ofList part]) = some .directory →
        tree.readText (base / word) = .error .nameTooLong) := by
  have hfind : tree.find (base / word) =
      tree.look (tree.start base ++ [String.ofList part]) [word.toList] := by
    rw [find_eq_look, hvalid, start_div tree base hword, Path.parts_div base hword, hstem]
    show tree.look (tree.start base) [part, word.toList] = _
    rw [look_cons_of_name hpart hdots hstart, if_neg (Nat.not_lt.2 hshort)]
  unfold readText FileTree.read
  rw [hfind]
  constructor
  · intro hnone
    rw [look_of_none hnone]
  · intro hdirectory
    have hdots' : word.toList ≠ ['.', '.'] := by
      intro heq
      rw [show word = ".." from String.toList_inj.1 heq] at hword
      exact absurd hword (by decide)
    rw [look_cons_of_name (Path.isSilent_of_isFileName hword) hdots' hdirectory,
      String.ofList_toList, if_pos hlong]

/-- A path with a name that is too long. -/
def HasLongName (path : Path) : Prop :=
  ∃ name ∈ Path.words path.parts, nameLimit < name.utf8ByteSize

variable (hrooted : tree.Rooted) (hbeside : Beside made folder tree other)

include hrooted hbeside

/-- Where nothing stands in a tree, the other tree has no more than directories, so nothing is found
there either. -/
theorem look_of_lost (hnone : tree.get? place = none) (hplain : ['.', '.'] ∉ parts)
    (hapart : Apart folder (place ++ Path.words parts)) :
    other.look place parts = .error .notFound ∨
      other.look place parts = .error .nameTooLong ∧
        ∃ name ∈ Path.words parts, nameLimit < name.utf8ByteSize := by
  induction parts generalizing place with
  | nil =>
      rw [show Path.words [] = [] from rfl, List.append_nil] at hapart
      exact .inl (look_of_none ((hbeside.get?_eq hapart).trans hnone))
  | cons part parts ih =>
      obtain ⟨hdots, hrest⟩ : part ≠ ['.', '.'] ∧ ['.', '.'] ∉ parts := by
        simpa [eq_comm] using hplain
      rcases hbeside.same place (hapart.not_prefix (List.prefix_append _ _))
        with hsame | ⟨-, -, -, hdirectory⟩
      · exact .inl (look_of_none (hsame.trans hnone))
      cases hsilent : Path.isSilent part with
      | true =>
          rw [look_cons_of_silent hsilent hdirectory]
          rw [Path.words_cons_of_silent hsilent] at hapart ⊢
          exact ih hnone hrest hapart
      | false =>
          rw [look_cons_of_name hsilent hdots hdirectory]
          rw [Path.words_cons_of_not_silent hsilent] at hapart ⊢
          split
          · next hlong => exact .inr ⟨rfl, _, List.mem_cons_self, hlong⟩
          · rw [List.append_cons] at hapart
            refine (ih (hrooted.get?_eq_none hnone) hrest hapart).imp_right ?_
            exact fun ⟨hfault, name, hmem, hlong⟩ =>
              ⟨hfault, name, List.mem_cons_of_mem _ hmem, hlong⟩

/-- What is found apart from the folder is the same in both trees, or nothing. -/
theorem look_beside (hsame : other.get? place = tree.get? place) (hplain : ['.', '.'] ∉ parts)
    (hapart : Apart folder (place ++ Path.words parts)) :
    other.look place parts = tree.look place parts ∨
      tree.look place parts = .error .notFound ∧ other.look place parts = .error .nameTooLong ∧
        ∃ name ∈ Path.words parts, nameLimit < name.utf8ByteSize := by
  induction parts generalizing place with
  | nil => exact .inl (by simp only [look, follow, hsame])
  | cons part parts ih =>
      obtain ⟨hdots, hrest⟩ : part ≠ ['.', '.'] ∧ ['.', '.'] ∉ parts := by
        simpa [eq_comm] using hplain
      by_cases hdirectory : tree.get? place = some .directory
      · cases hsilent : Path.isSilent part with
        | true =>
            rw [look_cons_of_silent hsilent hdirectory,
              look_cons_of_silent hsilent (hsame.trans hdirectory)]
            rw [Path.words_cons_of_silent hsilent] at hapart ⊢
            exact ih hsame hrest hapart
        | false =>
            rw [look_cons_of_name hsilent hdots hdirectory,
              look_cons_of_name hsilent hdots (hsame.trans hdirectory)]
            rw [Path.words_cons_of_not_silent hsilent] at hapart ⊢
            split
            · exact .inl rfl
            · rw [List.append_cons] at hapart
              rcases hbeside.same _ (hapart.not_prefix (List.prefix_append _ _))
                with hnext | ⟨-, -, hnone, -⟩
              · refine (ih hnext hrest hapart).imp_right ?_
                rintro ⟨hfault, hfault', name, hmem, hlong⟩
                exact ⟨hfault, hfault', name, List.mem_cons_of_mem _ hmem, hlong⟩
              · rw [look_of_none hnone]
                rcases look_of_lost hrooted hbeside hnone hrest hapart
                  with hlost | ⟨hlost, name, hmem, hlong⟩
                · exact .inl hlost
                · exact .inr ⟨rfl, hlost, name, List.mem_cons_of_mem _ hmem, hlong⟩
      · exact .inl (look_cons_congr hsame hdirectory)

/-- A plain path leads to the same in both trees, or to nothing in both. -/
theorem find_beside (hplain : path.Plain) (hapart : Apart folder (tree.placeOf path)) :
    other.find path = tree.find path ∨
      tree.find path = .error .notFound ∧ other.find path = .error .nameTooLong ∧
        HasLongName path := by
  rw [find_eq_look, find_eq_look, hbeside.start_eq]
  cases pathFault? path with
  | some fault => exact .inl rfl
  | none =>
      have hstart := hrooted.start path
      have hkept := hbeside.directory (hapart.not_prefix (List.prefix_append _ _)) hstart
      exact look_beside hrooted hbeside (hkept.trans hstart.symm) hplain hapart

/-- Whether a path apart from the folder is a directory is the same in both trees. -/
theorem isDirectory_beside (hplain : path.Plain) (hapart : Apart folder (tree.placeOf path)) :
    other.isDirectory path = tree.isDirectory path := by
  unfold isDirectory
  rcases find_beside hrooted hbeside hplain hapart with hsame | ⟨hmissing, hlong, -⟩
  · rw [hsame]
  · rw [hmissing, hlong]

/-- Reading a file apart from the folder gives the same in both trees, or fails in both, where a
name that is too long is noticed in one tree only. -/
theorem readText_beside (hplain : path.Plain) (hapart : Apart folder (tree.placeOf path)) :
    other.readText path = tree.readText path ∨
      tree.readText path = .error .notFound ∧ other.readText path = .error .nameTooLong ∧
        HasLongName path := by
  unfold readText read
  rcases find_beside hrooted hbeside hplain hapart with hsame | ⟨hmissing, hlong, hname⟩
  · rw [hsame]
    exact .inl rfl
  · rw [hmissing, hlong]
    exact .inr ⟨rfl, rfl, hname⟩

end Reading

section Making

/-- One more directory is made alike in both trees. -/
theorem makeName_beside (hbeside : Beside made folder tree other)
    (hfolder : ¬ folder <+: place ++ [name])
    (hdotted : dotted = true → ¬ place ++ [name] <+: folder) :
    (other.makeName place name dotted).1 = (tree.makeName place name dotted).1 ∧
      Beside made folder (tree.makeName place name dotted).2
        (other.makeName place name dotted).2 := by
  unfold makeName
  by_cases hlong : nameLimit < name.utf8ByteSize
  · rw [if_pos hlong, if_pos hlong]
    exact ⟨rfl, hbeside⟩
  rw [if_neg hlong, if_neg hlong]
  have hne : place ++ [name] ≠ [] := by simp
  rcases hbeside.same _ hfolder with hsame | ⟨-, hway, hnone, hdirectory⟩
  · rw [hsame]
    cases tree.get? (place ++ [name]) with
    | some entry => cases entry <;> exact ⟨rfl, hbeside⟩
    | none =>
        cases dotted with
        | true => exact ⟨rfl, hbeside⟩
        | false => exact ⟨rfl, hbeside.put hne _⟩
  · obtain rfl : dotted = false := Bool.eq_false_iff.2 fun heq => hdotted heq hway
    rw [hnone, hdirectory]
    exact ⟨rfl, hbeside.put_left hne hdirectory⟩

/-- Making directories apart from the folder has the same result in both trees, and leaves them
beside each other. -/
theorem makeNames_beside (hbeside : Beside made folder tree other)
    (hfolder : ¬ folder <+: place ++ names.reverse)
    (hdotted : dotted = true → ¬ place ++ names.reverse <+: folder) :
    (other.makeNames place dotted names).1 = (tree.makeNames place dotted names).1 ∧
      Beside made folder (tree.makeNames place dotted names).2
        (other.makeNames place dotted names).2 := by
  induction names generalizing dotted with
  | nil => exact ⟨rfl, hbeside⟩
  | cons name names ih =>
      rw [List.reverse_cons, ← List.append_assoc] at hfolder hdotted
      obtain ⟨hanswer, hmiddle⟩ := ih
        (fun hway => hfolder (hway.trans (List.prefix_append _ _))) (nofun : false = true → _)
      rw [makeNames, makeNames]
      rcases hmade : tree.makeNames place false names with ⟨answer, middle⟩
      rcases hmade' : other.makeNames place false names with ⟨answer', middle'⟩
      rw [hmade, hmade'] at hanswer hmiddle
      obtain rfl : answer' = answer := hanswer
      cases answer' with
      | error fault => cases fault <;> exact ⟨rfl, hmiddle⟩
      | ok _ => exact makeName_beside hmiddle hfolder hdotted

/-- Nothing is made for a path with a fault that it has in every tree. -/
theorem createDirectories_of_pathFault {fault : FileFault} (h : pathFault? path = some fault)
    (hne : path.text ≠ "") : tree.createDirectories path = (.error fault, tree) := by
  have hmake : tree.makeDirectory path = .error fault := by
    rw [makeDirectory, target, h]
  have hdirectory : tree.isDirectory path = false := by
    simp [isDirectory, find, locate, h]
  have hfault : fault ≠ .notFound := by
    unfold pathFault? at h
    grind
  rw [createDirectories, List.filter_cons_of_pos (by simpa using hne), createAll, hmake]
  cases fault <;> simp_all [settle]

/-- The directories of a plain path that leads elsewhere are made alike in both trees. -/
theorem createDirectories_beside (hrooted : tree.Rooted) (hother : other.Rooted)
    (hbeside : Beside made folder tree other) (hplain : path.Plain)
    (hapart : Apart folder (tree.placeOf path)) :
    (other.createDirectories path).1 = (tree.createDirectories path).1 ∧
      Beside made folder (tree.createDirectories path).2 (other.createDirectories path).2 := by
  by_cases hempty : path.text = ""
  · rw [createDirectories_of_has (.inl hempty), createDirectories_of_has (.inl hempty)]
    exact ⟨rfl, hbeside⟩
  cases hfault : pathFault? path with
  | some fault =>
      rw [createDirectories_of_pathFault hfault hempty,
        createDirectories_of_pathFault hfault hempty]
      exact ⟨rfl, hbeside⟩
  | none =>
      rw [createDirectories_of_plain hrooted hfault hplain,
        createDirectories_of_plain hother hfault hplain, hbeside.start_eq]
      have hplace : tree.start path ++ (Path.words path.parts).reverse.reverse =
          tree.placeOf path := by
        rw [List.reverse_reverse]
        rfl
      exact makeNames_beside hbeside (hplace ▸ hapart.1) fun _ => hplace ▸ hapart.2

/-- Making the directories of a plain path leaves a tree as it is, but for what is on the way. -/
theorem beside_createDirectories (hrooted : tree.Rooted) (hplain : path.Plain) :
    Beside (fun _ => True) (tree.placeOf path) tree (tree.createDirectories path).2 := by
  by_cases hempty : path.text = ""
  · rw [createDirectories_of_has (.inl hempty)]
    exact .refl _ _ _
  cases hfault : pathFault? path with
  | some fault =>
      rw [createDirectories_of_pathFault hfault hempty]
      exact .refl _ _ _
  | none =>
      rw [createDirectories_of_plain hrooted hfault hplain]
      refine ⟨current_makeNames _ _ _ _, fun location _ => ?_⟩
      have hchange := get?_makeNames tree (tree.start path) path.endsWithDot
        (Path.words path.parts).reverse location
      rw [List.reverse_reverse] at hchange
      exact hchange.imp_right fun h => ⟨trivial, h⟩

end Making

end MiniProgram.FileTree
