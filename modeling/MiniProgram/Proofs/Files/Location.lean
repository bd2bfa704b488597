import Mathlib.Data.List.Induction
import MiniProgram.Proofs.Files.Stability

/-!
# Where plain paths lead

A plain path has no double dots. The place that it leads to can be read off it (`placeOf`), whatever
the tree holds, and in a rooted tree, in which everything stands in a directory, what is found on
the way there decides whether it leads there at all. `enter` goes that way name by name, and
`makeDirectory_of_plain` and `isDirectory_iff_enter` describe what operations do by it.

Making directories and writing files keeps a tree rooted.
-/

namespace MiniProgram.FileTree

variable {tree next : FileTree} {path : Path} {place goal location : Location}
  {part : List Char} {parts : List (List Char)} {name : String} {names : List String}

/-- A tree in which everything stands in a directory, and which is worked on from a directory. -/
structure Rooted (tree : FileTree) : Prop where
  current : tree.get? tree.current = some .directory
  directory : ∀ entry ∈ tree.entries, tree.get? (above entry.1) = some .directory

/-- Whether a directory was found is decided by looking at it. -/
instance : (found : Option Entry) → Decidable (found = some .directory)
  | some .directory => isTrue rfl
  | some (.file _ _) => isFalse nofun
  | none => isFalse nofun

/-- Whether a tree is rooted is decided by its current directory and its entries. -/
instance (tree : FileTree) : Decidable tree.Rooted :=
  decidable_of_iff (tree.get? tree.current = some .directory ∧
      ∀ entry ∈ tree.entries, tree.get? (above entry.1) = some .directory)
    ⟨fun h => ⟨h.1, h.2⟩, fun h => ⟨h.current, h.directory⟩⟩

/-- The place that a plain path leads to. -/
def placeOf (tree : FileTree) (path : Path) : Location :=
  tree.start path ++ Path.words path.parts

/-- A file in a directory has a place below the one of the directory. -/
theorem placeOf_div (tree : FileTree) (base : Path) {word : String}
    (hword : Path.isFileName word = true) :
    tree.placeOf (base / word) = tree.placeOf base ++ [word] := by
  rw [placeOf, placeOf, start_div tree base hword, Path.words_div base hword, List.append_assoc]

section Rooting

/-- What stands in something stands in a directory. -/
theorem Rooted.directory_of_get? (h : tree.Rooted)
    (hentry : (tree.get? (location ++ [name])).isSome) :
    tree.get? location = some .directory := by
  unfold get? at hentry
  rw [if_neg (by simp)] at hentry
  obtain ⟨entry, hlookup⟩ := Option.isSome_iff_exists.1 hentry
  obtain ⟨_, _, hentries, -⟩ := List.lookup_eq_some_iff.1 hlookup
  have habove := h.directory (location ++ [name], entry) (by simp [hentries])
  rwa [above, List.dropLast_concat] at habove

/-- In a rooted tree nothing stands below a place where nothing does. -/
theorem Rooted.get?_eq_none (h : tree.Rooted) (hnone : tree.get? location = none) :
    tree.get? (location ++ [name]) = none := by
  by_contra hne
  rw [h.directory_of_get? (Option.isSome_iff_ne_none.2 hne)] at hnone
  cases hnone

/-- Where a path starts there is a directory. -/
theorem Rooted.start (h : tree.Rooted) (path : Path) :
    tree.get? (tree.start path) = some .directory := by
  unfold FileTree.start
  split
  · rfl
  · exact h.current

/-- A rooted tree stays so when something is set in one of its directories, where none stands. -/
theorem Rooted.put (h : tree.Rooted) (hdirectory : tree.get? place = some .directory)
    (hplain : tree.get? (place ++ [name]) ≠ some .directory) (entry : Entry) :
    (tree.put (place ++ [name]) entry).Rooted := by
  have hput := get?_put tree
    (List.append_ne_nil_of_right_ne_nil place (List.cons_ne_nil name [])) entry
  have hkept : ∀ l, tree.get? l = some .directory →
      (tree.put (place ++ [name]) entry).get? l = some .directory := by
    intro l hl
    rw [hput, if_neg, hl]
    rintro rfl
    exact hplain hl
  refine ⟨hkept _ h.current, fun other hother => hkept _ ?_⟩
  unfold FileTree.put at hother
  dsimp only at hother
  have habove : above (place ++ [name]) = place := List.dropLast_concat
  split at hother
  · obtain ⟨old, hold, rfl⟩ := List.mem_map.1 hother
    split
    · rwa [habove]
    · exact h.directory old hold
  · rcases List.mem_append.1 hother with hold | hnew
    · exact h.directory other hold
    · rwa [List.mem_singleton.1 hnew, habove]

/-- Making a directory keeps a tree rooted. -/
theorem Rooted.makeDirectory (h : tree.Rooted) (hmake : tree.makeDirectory path = .ok next) :
    next.Rooted := by
  obtain ⟨location, trailing, htarget, hnone, rfl⟩ := makeDirectory_eq_ok_iff.1 hmake
  obtain ⟨place, part, hholds, rfl, -⟩ := target_eq_named_iff.1 htarget
  exact h.put hholds.directory (by simp [hnone]) _

/-- Making all directories of a path keeps a tree rooted. -/
theorem Rooted.createDirectories (h : tree.Rooted) (path : Path) :
    (tree.createDirectories path).2.Rooted :=
  createDirectories_keeps Rooted.makeDirectory h path

/-- Writing a file keeps a tree rooted. -/
theorem Rooted.write {content : ByteArray} (h : tree.Rooted)
    (hwrite : tree.write path content = .ok next) : next.Rooted := by
  obtain ⟨location, htarget, hplain, rfl⟩ := write_eq_ok_iff.1 hwrite
  obtain ⟨place, part, hholds, rfl, -⟩ := target_eq_named_iff.1 htarget
  exact h.put hholds.directory hplain _

end Rooting

section Entering

/-- A place that something was followed to, if it is a directory. -/
def checked (tree : FileTree) : Except FileFault Location → Except FileFault Location
  | .error fault => .error fault
  | .ok place =>
    match tree.get? place with
    | none => .error .notFound
    | some (.file _ _) => .error .notDirectory
    | some .directory => .ok place

/-- `tree.enter place names` goes from a directory into one with the last of some names, which lists
that name first. -/
def enter (tree : FileTree) (place : Location) : List String → Except FileFault Location
  | [] => tree.checked (.ok place)
  | name :: names =>
    match tree.enter place names with
    | .error fault => .error fault
    | .ok middle =>
      if nameLimit < name.utf8ByteSize then .error .nameTooLong
      else tree.checked (.ok (middle ++ [name]))

/-- Where a plain path leads can be read off it. -/
theorem eq_of_follow_plain (hplain : ['.', '.'] ∉ parts)
    (h : tree.follow place parts = .ok goal) : goal = place ++ Path.words parts := by
  induction parts generalizing place with
  | nil => simpa [Path.words] using (Except.ok.inj h).symm
  | cons part parts ih =>
      obtain ⟨hdots, hrest⟩ : part ≠ ['.', '.'] ∧ ['.', '.'] ∉ parts := by
        simpa [eq_comm] using hplain
      obtain ⟨middle, hstep, hfollow⟩ := follow_cons_eq_ok_iff.1 h
      cases hsilent : Path.isSilent part with
      | true =>
          rw [step_of_silent hsilent (directory_of_step hstep)] at hstep
          obtain rfl := Except.ok.inj hstep
          rw [Path.words_cons_of_silent hsilent]
          exact ih hrest hfollow
      | false =>
          obtain rfl : middle = place ++ [String.ofList part] := by
            unfold step at hstep
            grind
          rw [Path.words_cons_of_not_silent hsilent, List.append_cons]
          exact ih hrest hfollow

/-- Following one part more is a step from where the others led to, or fails where they did. -/
theorem follow_concat (tree : FileTree) (place : Location) (parts : List (List Char))
    (part : List Char) :
    tree.follow place (parts ++ [part]) =
      match tree.follow place parts with
      | .error fault => .error fault
      | .ok middle => tree.step middle part := by
  cases hfollow : tree.follow place parts with
  | ok middle => exact follow_append_singleton hfollow
  | error fault =>
      induction parts generalizing place with
      | nil => cases hfollow
      | cons first parts ih =>
          rw [follow] at hfollow
          rw [List.cons_append, follow]
          cases hstep : tree.step place first with
          | error cause =>
              rw [hstep] at hfollow
              exact hfollow
          | ok middle =>
              rw [hstep] at hfollow
              exact ih middle hfollow

/-- A place passes the check if a directory stands there. -/
theorem checked_eq_ok_iff :
    tree.checked (.ok place) = .ok goal ↔ place = goal ∧ tree.get? goal = some .directory := by
  unfold checked
  grind

/-- A step with a part that is no name goes nowhere. -/
theorem checked_step_of_silent (h : Path.isSilent part = true) :
    tree.checked (tree.step place part) = tree.checked (.ok place) := by
  unfold step
  cases hplace : tree.get? place with
  | none => simp [checked, hplace]
  | some entry => cases entry <;> simp [checked, hplace, h]

/-- A step with a name goes into a directory of that name, out of one that is there. -/
theorem checked_step_of_name (hname : Path.isSilent part = false) (hdots : part ≠ ['.', '.']) :
    tree.checked (tree.step place part) =
      match tree.checked (.ok place) with
      | .error fault => .error fault
      | .ok middle =>
        if nameLimit < (String.ofList part).utf8ByteSize then .error .nameTooLong
        else tree.checked (.ok (middle ++ [String.ofList part])) := by
  unfold step
  cases hplace : tree.get? place with
  | none => simp [checked, hplace]
  | some entry =>
      cases entry with
      | file content executable => simp [checked, hplace]
      | directory =>
          simp only [checked, hplace, hname, hdots, if_false, Bool.false_eq_true]
          by_cases hlong : nameLimit < (String.ofList part).utf8ByteSize
          · simp only [hlong, if_true]
          · simp only [hlong, if_false]
            cases hnext : tree.get? (place ++ [String.ofList part]) <;> simp [hnext]

/-- Following the parts of a plain path into a directory is entering the names among them. -/
theorem checked_follow (hplain : ['.', '.'] ∉ parts) :
    tree.checked (tree.follow place parts) = tree.enter place (Path.words parts).reverse := by
  induction parts using List.reverseRecOn with
  | nil => rfl
  | append_singleton parts part ih =>
      have ih := ih fun hmem => hplain (List.mem_append_left _ hmem)
      have hdots : part ≠ ['.', '.'] := fun heq => hplain (heq ▸ List.mem_append_right _ (by simp))
      rw [follow_concat, Path.words_append, List.reverse_append]
      cases hsilent : Path.isSilent part with
      | true =>
          rw [Path.words_cons_of_silent hsilent]
          show _ = tree.enter place (Path.words parts).reverse
          rw [← ih]
          cases tree.follow place parts with
          | error fault => rfl
          | ok middle => exact checked_step_of_silent hsilent
      | false =>
          rw [Path.words_cons_of_not_silent hsilent]
          show _ = tree.enter place (String.ofList part :: (Path.words parts).reverse)
          rw [enter, ← ih]
          cases tree.follow place parts with
          | error fault => rfl
          | ok middle => exact checked_step_of_name hsilent hdots

/-- Entering leads to the place below that the names spell, and a directory stands there. -/
theorem enter_eq_ok (h : tree.enter place names = .ok goal) :
    goal = place ++ names.reverse ∧ tree.get? goal = some .directory := by
  induction names generalizing goal with
  | nil =>
      obtain ⟨rfl, hdirectory⟩ := checked_eq_ok_iff.1 h
      exact ⟨by simp, hdirectory⟩
  | cons name names ih =>
      rw [enter] at h
      cases hmiddle : tree.enter place names with
      | error fault => simp [hmiddle] at h
      | ok middle =>
          simp only [hmiddle] at h
          split at h
          · cases h
          · obtain ⟨rfl, hdirectory⟩ := checked_eq_ok_iff.1 h
            obtain ⟨rfl, -⟩ := ih hmiddle
            exact ⟨by simp, hdirectory⟩

/-- Whether a plain path leads to a directory is found out by entering its names. -/
theorem isDirectory_iff_enter (hvalid : pathFault? path = none) (hplain : path.Plain) :
    tree.isDirectory path = true ↔
      ∃ place, tree.enter (tree.start path) (Path.words path.parts).reverse = .ok place := by
  rw [← checked_follow hplain]
  unfold isDirectory find locate checked
  rw [hvalid]
  cases tree.follow (tree.start path) path.parts with
  | error fault => simp
  | ok place =>
      cases hplace : tree.get? place with
      | none => simp [hplace]
      | some entry => cases entry <;> simp [hplace]

end Entering

section Targets

/-- The names of a path in front of its end. -/
theorem words_of_dropWhile {last : List Char} {before : List (List Char)}
    (h : path.parts.reverse.dropWhile (· = []) = last :: before) :
    Path.words path.parts = Path.words before.reverse ++ Path.words [last] := by
  obtain ⟨behind, hparts, hbehind⟩ := exists_parts_of_dropWhile path
  rw [hparts, h, Path.words_append, hbehind.words_eq, List.append_nil, List.reverse_cons,
    Path.words_append]

/-- A path of separators alone has no names. -/
theorem words_of_dropWhile_nil (h : path.parts.reverse.dropWhile (· = []) = []) :
    Path.words path.parts = [] := by
  obtain ⟨behind, hparts, hbehind⟩ := exists_parts_of_dropWhile path
  rw [hparts, h, Path.words_append, hbehind.words_eq]
  rfl

/-- Where the last part of a plain path is to be made something, it is entered what stands in front
of it. -/
theorem target_of_plain {last : List Char} {before : List (List Char)}
    (hvalid : pathFault? path = none) (hplain : path.Plain)
    (h : path.parts.reverse.dropWhile (· = []) = last :: before) :
    tree.target path =
      match tree.enter (tree.start path) (Path.words before.reverse).reverse with
      | .error fault => .error fault
      | .ok place =>
        if last = ['.'] then .ok .unnamed
        else if nameLimit < (String.ofList last).utf8ByteSize then .error .nameTooLong
        else .ok (.named (place ++ [String.ofList last]) path.hasTrailingSeparator) := by
  have hmem : ∀ part ∈ last :: before, part ≠ ['.', '.'] := by
    rintro part hpart rfl
    have hsuffix := List.dropWhile_suffix (l := path.parts.reverse) (· = [])
    exact hplain (List.mem_reverse.1 (hsuffix.subset (h ▸ hpart)))
  have hbefore : ['.', '.'] ∉ before.reverse := fun hdots =>
    hmem _ (List.mem_cons_of_mem _ (List.mem_reverse.1 hdots)) rfl
  rw [← checked_follow hbefore]
  unfold target checked
  simp only [hvalid, h]
  cases tree.follow (tree.start path) before.reverse with
  | error fault => rfl
  | ok place =>
      cases hplace : tree.get? place with
      | none => simp [hplace]
      | some entry => cases entry <;> simp [hplace, hmem last List.mem_cons_self]

end Targets

end MiniProgram.FileTree
