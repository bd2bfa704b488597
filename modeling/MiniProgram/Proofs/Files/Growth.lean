import MiniProgram.Files.Tree
import MiniProgram.Proofs.Path.Join

/-!
# How file trees change

`Grows changed tree next` compares two trees: outside of the locations in `changed`, all that may
happen is that a directory appears where nothing stood. Nothing is removed, and no directory becomes
a file anywhere. Making directories grows a tree and changes no location
(`grows_createDirectories`), and writing a file changes one (`exists_of_write`). What either does to
a tree is said by `makeDirectory_eq_ok_iff` and `write_eq_ok_iff`, and what making one directory
keeps, making all of a path keeps (`createDirectories_keeps`).

Where a path leads does not depend on what else a tree holds. So a path that named a place for a
file still names it after the tree has grown (`Grows.target`), and a file that was written can be
read where it was written (`Grows.locate`).
-/

namespace MiniProgram.FileTree

/-- `Grows changed tree next` says that `next` is `tree` with more directories, but for what stands
at the locations in `changed`. Directories are kept there too. -/
structure Grows (changed : List Location) (tree next : FileTree) : Prop where
  current_eq : next.current = tree.current
  directory : ∀ location, tree.get? location = some .directory →
    next.get? location = some .directory
  unchanged : ∀ location ∉ changed, next.get? location = tree.get? location ∨
    tree.get? location = none ∧ next.get? location = some .directory

section Growth

variable {changed others : List Location} {tree next last : FileTree} {location : Location}

/-- A tree that stays as it is has grown. -/
theorem Grows.refl (changed : List Location) (tree : FileTree) : Grows changed tree tree :=
  ⟨rfl, fun _ h => h, fun _ _ => .inl rfl⟩

/-- Growing twice is growing. -/
theorem Grows.trans (h : Grows changed tree next) (h' : Grows changed next last) :
    Grows changed tree last := by
  refine ⟨h'.current_eq.trans h.current_eq, fun l hl => h'.directory l (h.directory l hl), ?_⟩
  intro l hl
  rcases h.unchanged l hl with hsame | ⟨hnone, hdirectory⟩
  · rcases h'.unchanged l hl with hsame' | ⟨hnone', hdirectory'⟩
    · exact .inl (hsame'.trans hsame)
    · exact .inr ⟨hsame.symm.trans hnone', hdirectory'⟩
  · exact .inr ⟨hnone, h'.directory l hdirectory⟩

/-- A tree that changed at some locations changed at more of them. -/
theorem Grows.mono (h : Grows changed tree next) (hsubset : ∀ l ∈ changed, l ∈ others) :
    Grows others tree next :=
  ⟨h.current_eq, h.directory, fun l hl => h.unchanged l fun hmem => hl (hsubset l hmem)⟩

/-- Growing orders file trees. -/
instance (changed : List Location) : IsPreorder FileTree (Grows changed) where
  refl := .refl changed
  trans _ _ _ := .trans

/-- A tree that grows changes no location at all, so it may as well change some. -/
theorem Grows.weaken (h : Grows [] tree next) : Grows changed tree next :=
  h.mono fun _ hmem => absurd hmem List.not_mem_nil

/-- Files outside of the changed locations are the same ones. -/
theorem Grows.file_iff (h : Grows changed tree next) (hl : location ∉ changed)
    {content : ByteArray} {executable : Bool} :
    next.get? location = some (.file content executable) ↔
      tree.get? location = some (.file content executable) := by
  rcases h.unchanged location hl with hsame | ⟨hnone, hdirectory⟩
  · rw [hsame]
  · simp [hnone, hdirectory]

end Growth

section Following

variable {changed : List Location} {tree next : FileTree} {place goal location : Location}
  {part : List Char} {parts : List (List Char)}

/-- A part of a path is followed from a directory only. -/
theorem directory_of_step (h : tree.step place part = .ok goal) :
    tree.get? place = some .directory := by
  grind [step]

/-- Following parts is a step with the first one, and following the others from there. -/
theorem follow_cons_eq_ok_iff :
    tree.follow place (part :: parts) = .ok goal ↔
      ∃ middle, tree.step place part = .ok middle ∧ tree.follow middle parts = .ok goal := by
  grind [follow]

/-- Following one part more is a step from where the others led to. -/
theorem follow_append_singleton (h : tree.follow place parts = .ok goal) :
    tree.follow place (parts ++ [part]) = tree.step goal part := by
  induction parts generalizing place with
  | nil =>
      obtain rfl : place = goal := by simpa [follow] using h
      rw [List.nil_append, follow]
      cases tree.step place part <;> rfl
  | cons first parts ih =>
      obtain ⟨middle, hstep, hrest⟩ := follow_cons_eq_ok_iff.1 h
      rw [List.cons_append, follow, hstep]
      exact ih hrest

/-- A step leads to the same place in a grown tree, as long as something stands there. -/
theorem Grows.step (h : Grows changed tree next) (hstep : tree.step place part = .ok goal)
    (hgoal : (next.get? goal).isSome) : next.step place part = .ok goal := by
  grind [FileTree.step, h.directory place (directory_of_step hstep)]

/-- A path leads to the same place in a grown tree, as long as something stands there. -/
theorem Grows.follow (h : Grows changed tree next) (hfollow : tree.follow place parts = .ok goal)
    (hgoal : (next.get? goal).isSome) : next.follow place parts = .ok goal := by
  induction parts generalizing place with
  | nil => exact hfollow
  | cons part parts ih =>
      obtain ⟨middle, hstep, hrest⟩ := follow_cons_eq_ok_iff.1 hfollow
      refine follow_cons_eq_ok_iff.2 ⟨middle, h.step hstep ?_, ih hrest⟩
      cases parts with
      | nil =>
          obtain rfl : middle = goal := by simpa [FileTree.follow] using hrest
          exact hgoal
      | cons second parts =>
          obtain ⟨_, hsecond, -⟩ := follow_cons_eq_ok_iff.1 hrest
          rw [h.directory middle (directory_of_step hsecond)]
          rfl

/-- A path starts at the same place after the tree has grown. -/
theorem Grows.start (h : Grows changed tree next) (path : Path) :
    next.start path = tree.start path := by
  rw [FileTree.start, FileTree.start, h.current_eq]

/-- A path that led to something still leads there after the tree has grown. -/
theorem Grows.locate {path : Path} (h : Grows changed tree next)
    (hlocate : tree.locate path = .ok goal) (hgoal : (next.get? goal).isSome) :
    next.locate path = .ok goal := by
  rw [FileTree.locate] at hlocate ⊢
  cases hfault : pathFault? path with
  | some fault => simp [hfault] at hlocate
  | none =>
      rw [hfault] at hlocate
      rw [h.start]
      exact h.follow hlocate hgoal

/-- A text that is not at a changed location can still be read after a tree has grown. -/
theorem Grows.readText_of_not_mem {path : Path} {text : String} (h : Grows changed tree next)
    (hplace : ∀ place ∈ changed, tree.locate path ≠ .ok place)
    (hread : tree.readText path = .ok text) : next.readText path = .ok text := by
  have hread' := hread
  rw [FileTree.readText, read, find] at hread
  cases hlocate : tree.locate path with
  | error fault => simp [hlocate] at hread
  | ok place =>
      cases hentry : tree.get? place with
      | none => simp [hlocate, hentry] at hread
      | some entry =>
          have hkept : next.get? place = some entry := by
            rcases h.unchanged place fun hmem => hplace place hmem hlocate with hsame | ⟨hnone, -⟩
            · rw [hsame, hentry]
            · simp [hentry] at hnone
          rw [← hread', FileTree.readText, FileTree.readText, read, read, find, find, hlocate,
            h.locate hlocate (by simp [hkept])]
          simp only [hkept, hentry]

/-- The files of a tree can still be read after it has grown. -/
theorem Grows.readText {path : Path} {text : String} (h : Grows [] tree next)
    (hread : tree.readText path = .ok text) : next.readText path = .ok text :=
  h.readText_of_not_mem (fun _ hmem => absurd hmem List.not_mem_nil) hread

end Following

section Targets

variable {changed : List Location} {tree next : FileTree} {path : Path} {location : Location}
  {trailing : Bool} {content : ByteArray} {entry : Entry}

/-- `tree.Holds path place name` says that the last part of a path is a name and that what stands
in front of it leads to a directory. Separators behind the name do not count. -/
structure Holds (tree : FileTree) (path : Path) (place : Location) (name : List Char) : Prop where
  valid : pathFault? path = none
  leads : ∃ before, path.parts.reverse.dropWhile (· = []) = name :: before ∧
    tree.follow (tree.start path) before.reverse = .ok place
  directory : tree.get? place = some .directory
  proper : name ≠ ['.'] ∧ name ≠ ['.', '.']
  short : (String.ofList name).utf8ByteSize ≤ nameLimit

/-- A path names a place in a directory exactly if it holds a name there. -/
theorem target_eq_named_iff :
    tree.target path = .ok (.named location trailing) ↔
      ∃ place name, tree.Holds path place name ∧ location = place ++ [String.ofList name] ∧
        trailing = path.hasTrailingSeparator := by
  constructor
  · intro h
    rw [target] at h
    grind [Holds]
  · rintro ⟨place, name, hholds, rfl, rfl⟩
    obtain ⟨before, hparts, hfollow⟩ := hholds.leads
    have hproper := hholds.proper
    have hshort := hholds.short
    simp only [target, hholds.valid, hparts, hfollow, hholds.directory]
    grind

/-- Where something would be made stays where it is when a tree grows. -/
theorem Grows.target (h : Grows changed tree next)
    (htarget : tree.target path = .ok (.named location trailing)) :
    next.target path = .ok (.named location trailing) := by
  obtain ⟨place, name, hholds, rfl, rfl⟩ := target_eq_named_iff.1 htarget
  obtain ⟨before, hparts, hfollow⟩ := hholds.leads
  have hdirectory := h.directory place hholds.directory
  refine target_eq_named_iff.2 ⟨place, name, ?_, rfl, rfl⟩
  exact { hholds with
    leads := ⟨before, hparts, by rw [h.start]; exact h.follow hfollow (by simp [hdirectory])⟩
    directory := hdirectory }

/-- Without a trailing separator the name is the last part of the path. -/
theorem Holds.exists_parts {place : Location} {name : List Char} (h : tree.Holds path place name)
    (htrailing : path.hasTrailingSeparator = false) :
    ∃ before, path.parts = before ++ [name] ∧ name ≠ [] ∧
      tree.follow (tree.start path) before = .ok place := by
  obtain ⟨before, hparts, hfollow⟩ := h.leads
  have hne : path.text ≠ "" := by
    intro hempty
    have hvalid := h.valid
    simp [pathFault?, hempty] at hvalid
  obtain ⟨front, last, hsplit, hlast⟩ := Path.exists_last_part hne htrailing
  rw [hsplit, List.reverse_append, List.reverse_singleton, List.singleton_append,
    List.dropWhile_cons_of_neg (by simpa using hlast)] at hparts
  obtain ⟨rfl, rfl⟩ := List.cons.inj hparts
  exact ⟨front, hsplit, hlast, by rwa [List.reverse_reverse] at hfollow⟩

/-- What stands where a path names a place is found by the path. -/
theorem locate_of_target (htarget : tree.target path = .ok (.named location false))
    (hentry : tree.get? location = some entry) : tree.locate path = .ok location := by
  obtain ⟨place, name, hholds, rfl, htrailing⟩ := target_eq_named_iff.1 htarget
  obtain ⟨before, hparts, hname, hfollow⟩ := hholds.exists_parts htrailing.symm
  have hproper := hholds.proper
  have hshort := hholds.short
  rw [locate, hholds.valid, hparts]
  simp only [follow_append_singleton hfollow, step, hholds.directory, Path.isSilent]
  grind

/-- A file name that is joined to a base is looked up from where the base starts. -/
theorem start_div (tree : FileTree) (base : Path) {word : String}
    (hword : Path.isFileName word = true) : tree.start (base / word) = tree.start base := by
  rw [start, start, Path.isAbsolute_div base hword]

/-- A file name that is joined to a base names an entry of the directory that the base leads to. -/
theorem exists_of_target_div {base : Path} {word : String} (hword : Path.isFileName word = true)
    (h : tree.target (base / word) = .ok (.named location false)) :
    ∃ place, tree.follow (tree.start base) base.stem = .ok place ∧ location = place ++ [word] := by
  obtain ⟨place, name, hholds, rfl, htrailing⟩ := target_eq_named_iff.1 h
  obtain ⟨before, hparts, -, hfollow⟩ := hholds.exists_parts htrailing.symm
  have habsolute := Path.isAbsolute_of_isFileName hword
  have hjoined : (base / word).parts = base.stem ++ [word.toList] := by
    rw [← Path.parts_of_isFileName hword]
    exact Path.parts_join base habsolute
  rw [hparts] at hjoined
  obtain ⟨rfl, hlast⟩ := List.append_inj' hjoined rfl
  rw [start_div tree base hword] at hfollow
  exact ⟨place, hfollow, by simp [List.singleton_inj.1 hlast]⟩

end Targets

section Making

variable {tree next : FileTree} {path : Path} {location : Location}

/-- The root is named by no path. -/
theorem ne_nil_of_target {trailing : Bool}
    (h : tree.target path = .ok (.named location trailing)) : location ≠ [] := by
  obtain ⟨place, name, -, rfl, -⟩ := target_eq_named_iff.1 h
  simp

/-- A directory that is put where nothing stood grows a tree. -/
theorem grows_put_directory (hne : location ≠ []) (hnone : tree.get? location = none) :
    Grows [] tree (tree.put location .directory) := by
  refine ⟨rfl, fun l hl => ?_, fun l _ => ?_⟩ <;> rw [get?_put tree hne]
  · split
    · rfl
    · exact hl
  · split
    · next heq => exact .inr ⟨heq ▸ hnone, rfl⟩
    · exact .inl rfl

/-- A directory is made where nothing stands, and nothing else is done. -/
theorem makeDirectory_eq_ok_iff :
    tree.makeDirectory path = .ok next ↔
      ∃ location trailing, tree.target path = .ok (.named location trailing) ∧
        tree.get? location = none ∧ next = tree.put location .directory := by
  unfold makeDirectory
  constructor
  · intro h
    split at h
    · cases h
    · cases h
    · next location trailing htarget =>
        split at h
        · cases h
        · next hnone => exact ⟨location, trailing, htarget, hnone, (Except.ok.inj h).symm⟩
  · rintro ⟨location, trailing, htarget, hnone, rfl⟩
    simp only [htarget, hnone]

/-- Making a directory grows a tree. -/
theorem grows_of_makeDirectory (h : tree.makeDirectory path = .ok next) : Grows [] tree next := by
  obtain ⟨location, trailing, htarget, hnone, rfl⟩ := makeDirectory_eq_ok_iff.1 h
  exact grows_put_directory (ne_nil_of_target htarget) hnone

/-- What every directory that is made keeps is kept when all missing directories are made, even if
that fails on the way. -/
theorem createAll_related {relation : FileTree → FileTree → Prop} [IsPreorder FileTree relation]
    (hmake : ∀ {tree next path}, makeDirectory tree path = .ok next → relation tree next)
    (tree : FileTree) (paths : List Path) : relation tree (tree.createAll paths).2 := by
  have hsettle : ∀ (tree : FileTree) path,
      relation tree (tree.settle path (tree.makeDirectory path)).2 := by
    intro tree path
    cases hattempt : tree.makeDirectory path with
    | error fault => exact refl_of relation tree
    | ok next => exact hmake hattempt
  induction paths with
  | nil => exact refl_of relation tree
  | cons path rest ih =>
      rw [createAll]
      split
      · split
        · next hrest => rwa [hrest] at ih
        · next hrest =>
            rw [hrest] at ih
            exact trans_of relation ih (hsettle _ _)
      · exact hsettle _ _

/-- Making directories changes nothing else, even if it fails on the way. -/
theorem grows_createDirectories (tree : FileTree) (path : Path) :
    Grows [] tree (tree.createDirectories path).2 :=
  createAll_related grows_of_makeDirectory _ _

/-- What a tree keeps with every directory that is made, it keeps when all missing directories are
made. -/
theorem createDirectories_keeps {keeps : FileTree → Prop}
    (hmake : ∀ {tree next path}, keeps tree → makeDirectory tree path = .ok next → keeps next)
    (h : keeps tree) (path : Path) : keeps (tree.createDirectories path).2 := by
  let relation (tree next : FileTree) : Prop := keeps tree → keeps next
  have : IsPreorder FileTree relation :=
    { refl := fun _ => id, trans := fun _ _ _ h h' => h' ∘ h }
  have hall : ∀ paths, relation tree (tree.createAll paths).2 :=
    createAll_related (fun hmade h => hmake h hmade) tree
  exact hall _ h

end Making

section Writing

variable {changed : List Location} {tree next last : FileTree} {path : Path}
  {location other : Location} {content : ByteArray}

/-- `tree.Written path location content` says that a path leads to a location, which is a place for
a file, and that a file with some content stands there. -/
structure Written (tree : FileTree) (path : Path) (location : Location) (content : ByteArray) :
    Prop where
  target : tree.target path = .ok (.named location false)
  file : ∃ executable, tree.get? location = some (.file content executable)

/-- Whether a file at a location is executable. -/
def isExecutableAt (tree : FileTree) (location : Location) : Bool :=
  match tree.get? location with
  | some (.file _ executable) => executable
  | _ => false

/-- Setting a file sets whether it is executable, and no other file changes. -/
theorem isExecutableAt_put {executable : Bool} (hne : location ≠ []) :
    (tree.put location (.file content executable)).isExecutableAt other =
      if other = location then executable else tree.isExecutableAt other := by
  unfold isExecutableAt
  rw [get?_put tree hne]
  by_cases hother : other = location
  · rw [if_pos hother, if_pos hother]
  · rw [if_neg hother, if_neg hother]

/-- A file is written where a path names a place without a separator behind it, unless a directory
stands there. It is executable if the file was that stood there. -/
theorem write_eq_ok_iff :
    tree.write path content = .ok next ↔
      ∃ location, tree.target path = .ok (.named location false) ∧
        tree.get? location ≠ some .directory ∧
        next = tree.put location (.file content (tree.isExecutableAt location)) := by
  unfold write isExecutableAt
  constructor
  · intro h
    split at h
    · cases h
    · cases h
    · next htarget => grind
  · rintro ⟨location, htarget, hfile, rfl⟩
    rw [htarget]
    grind

/-- A file that is written where no directory stands changes the tree there, and no directory. -/
theorem grows_put_file (content : ByteArray) (executable : Bool) (hne : location ≠ [])
    (hfile : tree.get? location ≠ some .directory) :
    Grows [location] tree (tree.put location (.file content executable)) ∧
      Grows [location] (tree.put location (.file content executable)) tree := by
  have hput := get?_put tree hne (.file content executable)
  have hother : ∀ l, l ≠ location →
      (tree.put location (.file content executable)).get? l = tree.get? l := fun l hl => by
    rw [hput, if_neg hl]
  refine ⟨⟨rfl, fun l hl => ?_, fun l hl => .inl (hother l (by simpa using hl))⟩,
    ⟨rfl, fun l hl => ?_, fun l hl => .inl (hother l (by simpa using hl)).symm⟩⟩
  · rwa [hother l fun heq => hfile (heq ▸ hl)]
  · rw [hput] at hl
    split at hl
    · cases hl
    · exact hl

/-- Writing a file changes what stands at one location, where no directory stood. -/
theorem exists_of_write (h : tree.write path content = .ok next) :
    ∃ location, tree.target path = .ok (.named location false) ∧ Grows [location] tree next ∧
      Written next path location content := by
  obtain ⟨location, htarget, hplain, rfl⟩ := write_eq_ok_iff.1 h
  have hne := ne_nil_of_target htarget
  obtain ⟨hgrows, -⟩ := grows_put_file content (tree.isExecutableAt location) hne hplain
  refine ⟨location, htarget, hgrows, hgrows.target htarget, tree.isExecutableAt location, ?_⟩
  rw [get?_put tree hne, if_pos rfl]

/-- A file that was written stays where it is when a tree grows elsewhere. -/
theorem Written.grow (h : Written tree path location content) (hgrows : Grows changed tree next)
    (hl : location ∉ changed) : Written next path location content := by
  obtain ⟨executable, hfile⟩ := h.file
  exact ⟨hgrows.target h.target, executable, (hgrows.file_iff hl).2 hfile⟩

/-- The path of a file that was written leads to it. -/
theorem Written.locate (h : Written tree path location content) :
    tree.locate path = .ok location := by
  obtain ⟨executable, hfile⟩ := h.file
  exact locate_of_target h.target hfile

/-- A text that was written can be read. -/
theorem Written.readText {text : String} (h : Written tree path location text.toUTF8) :
    tree.readText path = .ok text := by
  obtain ⟨executable, hfile⟩ := h.file
  have hdecode : String.fromUTF8? text.toByteArray = some text := dif_pos text.isValidUTF8
  simp [FileTree.readText, read, find, h.locate, hfile, hdecode]

end Writing

end MiniProgram.FileTree
