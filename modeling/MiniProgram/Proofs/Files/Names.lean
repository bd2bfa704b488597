import MiniProgram.Proofs.Files.Growth
import MiniProgram.Proofs.Text.Blank

/-!
# Names in file trees

In a proper tree every name could stand in a directory: it is not empty, it is no dot and no double
dot, and there is no separator in it. Making directories and writing files keeps a tree proper, as
what they add is called by a part of a path.
-/

namespace MiniProgram.FileTree

/-- A tree whose entries are called by names that can stand in a directory. -/
def Proper (tree : FileTree) : Prop :=
  ∀ entry ∈ tree.entries, ∀ name ∈ entry.1, Path.isFileName name = true

/-- Whether a tree is proper is decided by its entries. -/
instance (tree : FileTree) : Decidable tree.Proper :=
  inferInstanceAs <| Decidable <|
    ∀ entry ∈ tree.entries, ∀ name ∈ entry.1, Path.isFileName name = true

variable {tree next : FileTree} {path : Path} {location : Location} {entry : Entry} {name : String}

/-- In a proper tree the names in a directory can stand in one. -/
theorem isFileName_of_mem_names (h : tree.Proper) (hname : name ∈ tree.names path) :
    Path.isFileName name = true := by
  rw [names] at hname
  split at hname
  · cases hname
  · split at hname
    · obtain ⟨entry, hentry, hlast⟩ := List.mem_filterMap.1 hname
      have hmem : name ∈ entry.1 := by
        split at hlast
        · next last heq =>
            split at hlast
            · exact Option.some.inj hlast ▸ List.mem_of_getLast? heq
            · cases hlast
        · cases hlast
      exact h entry hentry name hmem
    · cases hname

/-- In a proper tree what stands somewhere has names that can stand in a directory. -/
theorem Proper.of_get? (h : tree.Proper) (hentry : tree.get? location = some entry) :
    ∀ name ∈ location, Path.isFileName name = true := by
  rw [get?] at hentry
  split at hentry
  · next hroot => simp [hroot]
  · obtain ⟨_, _, hentries, -⟩ := List.lookup_eq_some_iff.1 hentry
    exact h (location, entry) (by simp [hentries])

/-- What would be made at a path has names that can stand in a directory. -/
theorem Proper.of_target {trailing : Bool} (h : tree.Proper)
    (htarget : tree.target path = .ok (.named location trailing)) :
    ∀ name ∈ location, Path.isFileName name = true := by
  obtain ⟨place, part, hholds, rfl, -⟩ := target_eq_named_iff.1 htarget
  obtain ⟨before, hparts, -⟩ := hholds.leads
  have hmem : part ∈ path.parts := by
    have hdrop := List.dropWhile_suffix (l := path.parts.reverse) (· = [])
    rw [hparts] at hdrop
    exact List.mem_reverse.1 (hdrop.subset List.mem_cons_self)
  have hname : part ≠ [] := by
    have hhead := List.head?_dropWhile_not (fun part : List Char => decide (part = []))
      path.parts.reverse
    rw [hparts] at hhead
    simpa using hhead
  intro name hname
  rcases List.mem_append.1 hname with hplace | hlast
  · exact h.of_get? hholds.directory name hplace
  · obtain rfl := List.mem_singleton.1 hlast
    have hseparator := Text.not_mem_of_mem_splitOn hmem
    have hproper := hholds.proper
    simp_all [Path.isFileName, ← String.toList_inj]

/-- Setting something with such names keeps a tree proper. -/
theorem Proper.put (h : tree.Proper) (hlocation : ∀ name ∈ location, Path.isFileName name = true)
    (entry : Entry) : (tree.put location entry).Proper := by
  intro other hother
  rw [FileTree.put] at hother
  dsimp only at hother
  split at hother
  · obtain ⟨old, hold, rfl⟩ := List.mem_map.1 hother
    split
    · exact hlocation
    · exact h old hold
  · rcases List.mem_append.1 hother with hold | hnew
    · exact h other hold
    · obtain rfl := List.mem_singleton.1 hnew
      exact hlocation

/-- Making a directory keeps a tree proper. -/
theorem Proper.makeDirectory (h : tree.Proper) (hmake : tree.makeDirectory path = .ok next) :
    next.Proper := by
  obtain ⟨location, trailing, htarget, -, rfl⟩ := makeDirectory_eq_ok_iff.1 hmake
  exact h.put (h.of_target htarget) _

/-- Making all directories of a path keeps a tree proper. -/
theorem Proper.createDirectories (h : tree.Proper) (path : Path) :
    (tree.createDirectories path).2.Proper :=
  createDirectories_keeps Proper.makeDirectory h path

/-- Writing a file keeps a tree proper. -/
theorem Proper.write {content : ByteArray} (h : tree.Proper)
    (hwrite : tree.write path content = .ok next) : next.Proper := by
  obtain ⟨location, htarget, -, rfl⟩ := write_eq_ok_iff.1 hwrite
  exact h.put (h.of_target htarget) _

end MiniProgram.FileTree
