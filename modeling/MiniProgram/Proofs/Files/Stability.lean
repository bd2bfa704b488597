import MiniProgram.Proofs.Files.Growth
import MiniProgram.Proofs.Path.Parent

/-!
# Operations that change nothing more

A directory that is there does not have to be made (`createDirectories_of_has`), and it is there
once it has been made (`has_of_createDirectories`). The directory above a file that is called by a
joined path is there as soon as the base of the path is (`Has.of_parent?`). Setting what stands at a
location to what stands there already leaves a tree as it is (`Settled.put_eq`).
-/

namespace MiniProgram.FileTree

variable {tree next : FileTree} {path base parent : Path} {place goal location other : Location}
  {parts others : List (List Char)} {part name : List Char} {entry entry' : Entry}

section Following

/-- Following parts and then others is following the others from where the parts led to. -/
theorem follow_append_eq_ok_iff :
    tree.follow place (parts ++ others) = .ok goal ↔
      ∃ middle, tree.follow place parts = .ok middle ∧ tree.follow middle others = .ok goal := by
  induction parts generalizing place with
  | nil => simp [follow]
  | cons part parts ih =>
      simp only [List.cons_append, follow_cons_eq_ok_iff, ih]
      constructor
      · rintro ⟨first, hstep, middle, hparts, hothers⟩
        exact ⟨middle, ⟨first, hstep, hparts⟩, hothers⟩
      · rintro ⟨middle, ⟨first, hstep, hparts⟩, hothers⟩
        exact ⟨first, hstep, middle, hparts, hothers⟩

/-- A part that is no name stays in a directory. -/
theorem step_of_silent (h : Path.isSilent part = true)
    (hdirectory : tree.get? place = some .directory) : tree.step place part = .ok place := by
  simp [step, h, hdirectory]

/-- Silent parts lead nowhere else. -/
theorem follow_of_silent (h : Path.Silent parts) (hdirectory : tree.get? place = some .directory) :
    tree.follow place parts = .ok place := by
  induction parts with
  | nil => rfl
  | cons part parts ih =>
      obtain ⟨hpart, hparts⟩ := List.forall_mem_cons.1 h
      rw [follow, step_of_silent hpart hdirectory]
      exact ih hparts

/-- Parts that are no names lead to where they start. -/
theorem eq_of_follow_silent (h : Path.Silent parts) (hfollow : tree.follow place parts = .ok goal) :
    goal = place := by
  induction parts with
  | nil => exact (Except.ok.inj hfollow).symm
  | cons part parts ih =>
      obtain ⟨hpart, hparts⟩ := List.forall_mem_cons.1 h
      obtain ⟨middle, hstep, hrest⟩ := follow_cons_eq_ok_iff.1 hfollow
      rw [step_of_silent hpart (directory_of_step hstep)] at hstep
      obtain rfl := Except.ok.inj hstep
      exact ih hparts hrest

/-- The path of a directory is valid and leads to it. -/
theorem exists_of_isDirectory (h : tree.isDirectory path = true) :
    pathFault? path = none ∧ ∃ place, tree.follow (tree.start path) path.parts = .ok place ∧
      tree.get? place = some .directory := by
  unfold isDirectory find locate at h
  grind

/-- A valid path that leads to a directory is one. -/
theorem isDirectory_of_follow (hvalid : pathFault? path = none)
    (hfollow : tree.follow (tree.start path) path.parts = .ok place)
    (hdirectory : tree.get? place = some .directory) : tree.isDirectory path = true := by
  simp [isDirectory, find, locate, hvalid, hfollow, hdirectory]

end Following

section Directories

/-- A directory that is there, or the empty path, which no directory has to be made for. -/
def Has (tree : FileTree) (path : Path) : Prop :=
  path.text = "" ∨ tree.isDirectory path = true

/-- `tree.Within base path` says that a path leads into the directory that `base` is the path of. -/
def Within (tree : FileTree) (base path : Path) : Prop :=
  ∃ folder location, tree.follow (tree.start base) base.stem = .ok folder ∧
    tree.locate path = .ok location ∧ folder <+: location

/-- The parts of a path are those in front of the separators at its end, and those separators. -/
theorem exists_parts_of_dropWhile (path : Path) :
    ∃ behind, path.parts = (path.parts.reverse.dropWhile (· = [])).reverse ++ behind ∧
      Path.Silent behind := by
  refine ⟨(path.parts.reverse.takeWhile (· = [])).reverse, ?_, fun part hpart => ?_⟩
  · rw [← List.reverse_append, List.takeWhile_append_dropWhile, List.reverse_reverse]
  · have hempty := List.all_eq_true.1 List.all_takeWhile part (List.mem_reverse.1 hpart)
    obtain rfl : part = [] := by simpa using hempty
    rfl

/-- The last part of a path that is left without separators behind it is not empty. -/
theorem ne_nil_of_dropWhile {before : List (List Char)}
    (h : path.parts.reverse.dropWhile (· = []) = name :: before) : name ≠ [] := by
  have hhead := List.head?_dropWhile_not (fun part : List Char => decide (part = []))
    path.parts.reverse
  rw [h] at hhead
  simpa using hhead

/-- Where a directory stands no other one can be made. -/
theorem makeDirectory_of_isDirectory (h : tree.isDirectory path = true) :
    tree.makeDirectory path = .error .alreadyExists := by
  obtain ⟨hvalid, goal, hfollow, hgoal⟩ := exists_of_isDirectory h
  obtain ⟨behind, hparts, hbehind⟩ := exists_parts_of_dropWhile path
  unfold makeDirectory target
  cases hfront : path.parts.reverse.dropWhile (· = []) with
  | nil => simp [hvalid]
  | cons last before =>
      rw [hparts, hfront, List.reverse_cons, List.append_assoc, List.singleton_append,
        follow_append_eq_ok_iff] at hfollow
      obtain ⟨place, hplace, hlast⟩ := hfollow
      obtain ⟨found, hstep, hrest⟩ := follow_cons_eq_ok_iff.1 hlast
      obtain rfl := eq_of_follow_silent hbehind hrest
      have hdirectory := directory_of_step hstep
      have hname := ne_nil_of_dropWhile hfront
      simp only [hvalid, hplace, hdirectory]
      unfold step at hstep
      grind [Path.isSilent]

/-- Nothing is done to make a directory that is there. -/
theorem createDirectories_of_has (h : tree.Has path) :
    tree.createDirectories path = (.ok (), tree) := by
  unfold createDirectories
  rcases h with hempty | hdirectory
  · have hparents : path.parents = [] := by
      have hparts : path.parts = [[]] := by simp [Path.parts, hempty]
      simp [Path.parents, hparts, Path.parentsOf]
    simp [hempty, hparents, createAll]
  · have hne : path.text ≠ "" := by
      intro hempty
      obtain ⟨hvalid, -⟩ := exists_of_isDirectory hdirectory
      simp [pathFault?, hempty] at hvalid
    rw [List.filter_cons_of_pos (by simpa using hne), createAll,
      makeDirectory_of_isDirectory hdirectory]
    simp [settle, hdirectory]

/-- A directory that was made is there. -/
theorem isDirectory_of_makeDirectory (h : tree.makeDirectory path = .ok next) :
    next.isDirectory path = true := by
  have hgrows := grows_of_makeDirectory h
  obtain ⟨location, trailing, htarget, -, rfl⟩ := makeDirectory_eq_ok_iff.1 h
  have hput := get?_put tree (ne_nil_of_target htarget) .directory location
  rw [if_pos rfl] at hput
  obtain ⟨place, name, hholds, rfl, -⟩ := target_eq_named_iff.1 (hgrows.target htarget)
  obtain ⟨before, hfront, hfollow⟩ := hholds.leads
  obtain ⟨behind, hparts, hbehind⟩ := exists_parts_of_dropWhile path
  have hproper := hholds.proper
  have hshort := hholds.short
  have hname := ne_nil_of_dropWhile hfront
  refine isDirectory_of_follow hholds.valid ?_ hput
  rw [hparts, hfront, List.reverse_cons, List.append_assoc, List.singleton_append]
  refine follow_append_eq_ok_iff.2 ⟨place, hfollow, follow_cons_eq_ok_iff.2
    ⟨place ++ [String.ofList name], ?_, follow_of_silent hbehind hput⟩⟩
  simp only [step, hholds.directory, Path.isSilent]
  grind

/-- Settling an attempt to make a directory succeeds only if the directory is there then. -/
theorem isDirectory_of_settle {attempt : Except FileFault FileTree}
    (hattempt : ∀ made, attempt = .ok made → made.isDirectory path = true)
    (h : tree.settle path attempt = (.ok (), next)) : next.isDirectory path = true := by
  unfold settle at h
  split at h
  · obtain ⟨-, rfl⟩ := Prod.mk.inj h
    exact hattempt _ rfl
  · split at h
    · next hdirectory =>
        obtain ⟨-, rfl⟩ := Prod.mk.inj h
        exact hdirectory
    · cases (Prod.mk.inj h).1

/-- A directory that has been made is there. -/
theorem has_of_createDirectories (h : tree.createDirectories path = (.ok (), next)) :
    next.Has path := by
  by_cases hempty : path.text = ""
  · exact .inl hempty
  right
  unfold createDirectories at h
  rw [List.filter_cons_of_pos (by simpa using hempty), createAll] at h
  split at h
  · split at h
    · cases (Prod.mk.inj h).1
    · exact isDirectory_of_settle (fun _ => isDirectory_of_makeDirectory) h
  · exact isDirectory_of_settle (fun _ => isDirectory_of_makeDirectory) h

/-- A directory that is there stays there when a tree grows. -/
theorem Grows.isDirectory {changed : List Location} (h : Grows changed tree next)
    (hdirectory : tree.isDirectory path = true) : next.isDirectory path = true := by
  obtain ⟨hvalid, goal, hfollow, hgoal⟩ := exists_of_isDirectory hdirectory
  have hkept := h.directory goal hgoal
  exact isDirectory_of_follow hvalid (by rw [h.start]; exact h.follow hfollow (by simp [hkept]))
    hkept

/-- A directory that is there is still there after the tree has grown. -/
theorem Grows.has {changed : List Location} (h : Grows changed tree next) (hhas : tree.Has path) :
    next.Has path :=
  hhas.imp_right h.isDirectory

/-- The stem of a directory's path leads to it. -/
theorem exists_of_isDirectory_stem (h : tree.isDirectory base = true) :
    ∃ place, tree.follow (tree.start base) base.stem = .ok place ∧
      tree.get? place = some .directory := by
  obtain ⟨-, place, hfollow, hplace⟩ := exists_of_isDirectory h
  refine ⟨place, ?_, hplace⟩
  unfold Path.stem
  split
  · next hempty =>
      have hparts : base.parts = [[]] := by simp [Path.parts, hempty]
      rw [hparts] at hfollow
      rw [follow, eq_of_follow_silent (List.forall_mem_singleton.2 rfl) hfollow]
  · split
    · next htrailing =>
        obtain ⟨front, -, hparts⟩ := Path.exists_of_hasTrailingSeparator htrailing
        rw [hparts] at hfollow
        obtain ⟨middle, hfront, hlast⟩ := follow_append_eq_ok_iff.1 hfollow
        rw [hparts, List.dropLast_concat, hfront,
          eq_of_follow_silent (List.forall_mem_singleton.2 rfl) hlast]
    · exact hfollow

/-- The faults that a path has in every tree are not there on the path above it. -/
theorem pathFault?_of_above (h : Path.Above parent path name) (hne : parent.text ≠ "")
    (hvalid : pathFault? path = none) : pathFault? parent = none := by
  obtain ⟨rest, hrest⟩ := h.text_prefix
  have hsize : parent.text.utf8ByteSize ≤ path.text.utf8ByteSize := by
    have htext : path.text = parent.text ++ String.ofList rest := by
      rw [← String.toList_inj, String.toList_append, String.toList_ofList, hrest]
    rw [htext, String.utf8ByteSize_append]
    exact Nat.le_add_right _ _
  have hnul : '\x00' ∈ parent.text.toList → '\x00' ∈ path.text.toList := fun hmem =>
    hrest ▸ List.mem_append_left rest hmem
  unfold pathFault? at hvalid ⊢
  grind

/-- Where the base of a path is, the directory above a file is that the path calls by a name. -/
theorem Has.of_parent? {word : String} (hword : Path.isFileName word = true)
    (hvalid : pathFault? (base / word) = none) (h : tree.Has base)
    (habove : (base / word).parent? = some parent) : tree.Has parent := by
  have hparts := Path.parts_div base hword
  have hsilent : Path.isSilent word.toList = false := Path.isSilent_of_isFileName hword
  rcases h with hempty | hdirectory
  · left
    have hparents : (base / word).parents = [⟨""⟩] := by
      rw [Path.stem, if_pos hempty, List.nil_append] at hparts
      have hne : word.toList ≠ [] := by
        intro hnil
        rw [hnil] at hsilent
        cases hsilent
      simp [Path.parents, hparts, Path.parentsOf, hne]
    rw [Path.parent?, hparents] at habove
    rw [← Option.some.inj habove]
  have hparent : (base / word).parent?.getD ⟨""⟩ = parent := by rw [habove, Option.getD_some]
  rw [← hparent]
  rcases Path.parent_cases base hword with ⟨hnone, -⟩ | ⟨found, hfound, hne, hparent, -⟩
  · exact .inl hnone
  · rw [hfound]
    right
    obtain ⟨front, gap, behind, others, hsplit, hothers, hgap, hbehind, hrest⟩ := hparent.parts_eq
    rw [hparts] at hsplit
    -- the last name of the path is the file's, so nothing stands behind it
    obtain rfl | ⟨behind, last, rfl⟩ := List.eq_nil_or_concat behind
    · obtain ⟨hstem, -⟩ := List.append_inj' hsplit rfl
      obtain ⟨place, hfollow, hplace⟩ := exists_of_isDirectory_stem hdirectory
      rw [hstem] at hfollow
      obtain ⟨middle, hfront, hlast⟩ := follow_append_eq_ok_iff.1 hfollow
      obtain rfl := eq_of_follow_silent hgap hlast
      have hstart : tree.start found = tree.start base := by
        rw [← tree.start_div base hword, start, start, hparent.isAbsolute_eq]
      refine isDirectory_of_follow (pathFault?_of_above hparent hne hvalid) ?_ hplace
      rw [hothers, hstart]
      exact follow_append_eq_ok_iff.2 ⟨place, hfront, follow_of_silent hrest hplace⟩
    · rw [List.concat_eq_append, ← List.cons_append, ← List.append_assoc] at hsplit
      obtain ⟨-, hlast⟩ := List.append_inj' hsplit rfl
      have hname := hbehind last (by simp)
      rw [← List.singleton_inj.1 hlast, hsilent] at hname
      cases hname

end Directories

section Settling

/-- `tree.Settled location entry` says that `entry` is listed for a location, and nothing else. -/
structure Settled (tree : FileTree) (location : Location) (entry : Entry) : Prop where
  listed : (tree.entries.lookup location).isSome
  only : ∀ old ∈ tree.entries, old.1 = location → old.2 = entry

/-- What was set at a location is all that is listed for it. -/
theorem settled_put (tree : FileTree) (location : Location) (entry : Entry) :
    (tree.put location entry).Settled location entry := by
  unfold put
  split
  · next hlisted =>
      have hlookup := lookup_map_replace tree.entries location location entry hlisted
      refine ⟨by rw [hlookup, if_pos rfl]; rfl, fun old hold hkey => ?_⟩
      obtain ⟨former, -, rfl⟩ := List.mem_map.1 hold
      split
      · rfl
      · next hne =>
          rw [if_neg hne] at hkey
          exact absurd hkey hne
  · next hunlisted =>
      have hnone := Option.not_isSome_iff_eq_none.1 hunlisted
      refine ⟨by simp [List.lookup_append, hnone], fun old hold hkey => ?_⟩
      rcases List.mem_append.1 hold with hformer | hnew
      · have hne := List.lookup_eq_none_iff.1 hnone old hformer
        simp [hkey] at hne
      · rw [List.mem_singleton.1 hnew]

/-- Setting something at another location keeps what is settled. -/
theorem Settled.put (h : tree.Settled location entry) (hne : other ≠ location) (entry' : Entry) :
    (tree.put other entry').Settled location entry := by
  have hlisted : ((tree.put other entry').entries.lookup location).isSome := by
    unfold FileTree.put
    split
    · next hother =>
        have hlookup := lookup_map_replace tree.entries other location entry' hother
        rw [hlookup, if_neg hne.symm]
        exact h.listed
    · simp [List.lookup_append, h.listed]
  refine ⟨hlisted, fun old hold hkey => ?_⟩
  unfold FileTree.put at hold
  dsimp only at hold
  split at hold
  · obtain ⟨former, hformer, rfl⟩ := List.mem_map.1 hold
    split at hkey
    · exact absurd hkey hne
    · next hother =>
        rw [if_neg hother]
        exact h.only former hformer hkey
  · rcases List.mem_append.1 hold with hformer | hnew
    · exact h.only old hformer hkey
    · rw [List.mem_singleton.1 hnew] at hkey
      exact absurd hkey hne

/-- What is settled at a location stands there. -/
theorem Settled.get?_eq (h : tree.Settled location entry) (hne : location ≠ []) :
    tree.get? location = some entry := by
  unfold get?
  rw [if_neg hne]
  obtain ⟨found, hfound⟩ := Option.isSome_iff_exists.1 h.listed
  obtain ⟨_, _, hentries, -⟩ := List.lookup_eq_some_iff.1 hfound
  rw [hfound, ← h.only (location, found) (by simp [hentries]) rfl]

/-- Setting what stands at a location to what stands there already changes nothing. -/
theorem Settled.put_eq (h : tree.Settled location entry) : tree.put location entry = tree := by
  unfold FileTree.put
  rw [if_pos h.listed]
  have hsame : (tree.entries.map fun old =>
      if old.1 = location then (location, entry) else old) = tree.entries := by
    refine (List.map_congr_left fun old hold => ?_).trans (List.map_id _)
    split
    · next hkey => exact Prod.ext hkey.symm (h.only old hold hkey).symm
    · rfl
  rw [hsame]

/-- What is set last at a location stands there. -/
theorem put_put (tree : FileTree) (location : Location) (entry entry' : Entry) :
    (tree.put location entry).put location entry' = tree.put location entry' := by
  rw [put, if_pos (settled_put tree location entry).listed]
  unfold put
  dsimp only
  split
  · rw [List.map_map]
    refine congrArg (FileTree.mk · _) (List.map_congr_left fun old _ => ?_)
    dsimp only [Function.comp]
    split <;> simp [*]
  · next hunlisted =>
      have hnone := Option.not_isSome_iff_eq_none.1 hunlisted
      have hsame : (tree.entries.map fun old =>
          if old.1 = location then (location, entry') else old) = tree.entries := by
        refine (List.map_congr_left fun old hold => ?_).trans (List.map_id _)
        have hkey := List.lookup_eq_none_iff.1 hnone old hold
        exact if_neg fun heq => by simp [heq] at hkey
      rw [List.map_append, hsame, List.map_singleton, if_pos rfl]

end Settling

end MiniProgram.FileTree
