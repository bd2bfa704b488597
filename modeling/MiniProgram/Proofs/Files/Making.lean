import MiniProgram.Proofs.Files.Location

/-!
# Making directories from the top

All missing directories of a path are made by trying to make the last one and falling back on the
path above it. On a plain path this comes to the same as going from the top and making what is
missing name by name: `createDirectories_of_plain` says so, for the answer and for what is left, and
also where it fails. What `makeNames` does is easy to follow, as it takes one name after the other.
-/

namespace MiniProgram.FileTree

variable {tree next : FileTree} {path : Path} {place goal location : Location}
  {name : String} {names : List String} {dotted : Bool}

/-- Makes a directory in another one, unless it is there. Where the path ends with a dot behind its
last name, the directory has to be there. -/
def makeName (tree : FileTree) (place : Location) (name : String) (dotted : Bool) :
    Except FileFault Unit × FileTree :=
  if nameLimit < name.utf8ByteSize then (.error .nameTooLong, tree)
  else
    match tree.get? (place ++ [name]) with
    | some .directory => (.ok (), tree)
    | some (.file _ _) => (.error (if dotted then .notDirectory else .alreadyExists), tree)
    | none =>
      if dotted then (.error .notFound, tree)
      else (.ok (), tree.put (place ++ [name]) .directory)

/-- Makes directories in each other from the top. The last of the names comes first. -/
def makeNames (tree : FileTree) (place : Location) (dotted : Bool) :
    List String → Except FileFault Unit × FileTree
  | [] => (.ok (), tree)
  | name :: names =>
    match tree.makeNames place false names with
    | (.error .alreadyExists, next) => (.error .notDirectory, next)
    | (.error fault, next) => (.error fault, next)
    | (.ok (), next) => next.makeName (place ++ names.reverse) name dotted

section Names

/-- What is made are directories at places where nothing stood. -/
theorem get?_makeName (tree : FileTree) (place : Location) (name : String) (dotted : Bool)
    (location : Location) :
    (tree.makeName place name dotted).2.get? location = tree.get? location ∨
      location = place ++ [name] ∧ tree.get? location = none ∧
        (tree.makeName place name dotted).2.get? location = some .directory := by
  unfold makeName
  split
  · exact .inl rfl
  · split
    · exact .inl rfl
    · exact .inl rfl
    · next hnone =>
        split
        · exact .inl rfl
        · have hput := get?_put tree
            (List.append_ne_nil_of_right_ne_nil place (List.cons_ne_nil name [])) .directory
            location
          by_cases hlocation : location = place ++ [name]
          · exact .inr ⟨hlocation, hlocation ▸ hnone, by rw [hput, if_pos hlocation]⟩
          · exact .inl (by rw [hput, if_neg hlocation])

/-- Making a directory in another one keeps the current directory. -/
theorem current_makeName (tree : FileTree) (place : Location) (name : String) (dotted : Bool) :
    (tree.makeName place name dotted).2.current = tree.current := by
  unfold makeName
  grind [put]

/-- Making directories changes places on the way to the last one. -/
theorem get?_makeNames (tree : FileTree) (place : Location) (dotted : Bool) (names : List String)
    (location : Location) :
    (tree.makeNames place dotted names).2.get? location = tree.get? location ∨
      location <+: place ++ names.reverse ∧ tree.get? location = none ∧
        (tree.makeNames place dotted names).2.get? location = some .directory := by
  induction names generalizing dotted with
  | nil => exact .inl rfl
  | cons name names ih =>
      have ih := ih false
      have hway : place ++ names.reverse <+: place ++ (name :: names).reverse := by
        rw [List.reverse_cons, ← List.append_assoc]
        exact List.prefix_append _ _
      rw [makeNames]
      rcases hmade : tree.makeNames place false names with ⟨fault | _, middle⟩ <;>
        rw [hmade] at ih
      · rcases ih with hsame | ⟨hlocation, hdirectory⟩
        · cases fault <;> exact .inl hsame
        · cases fault <;> exact .inr ⟨hlocation.trans hway, hdirectory⟩
      · rcases get?_makeName middle (place ++ names.reverse) name dotted location
          with hsame | ⟨rfl, hnone, hdirectory⟩
        · dsimp only
          rw [hsame]
          exact ih.imp_right fun h => ⟨h.1.trans hway, h.2⟩
        · rcases ih with hsame | ⟨-, -, hmiddle⟩
          · exact .inr ⟨by simp, hsame ▸ hnone, hdirectory⟩
          · rw [hmiddle] at hnone
            cases hnone

/-- Making directories in each other keeps the current directory. -/
theorem current_makeNames (tree : FileTree) (place : Location) (dotted : Bool)
    (names : List String) : (tree.makeNames place dotted names).2.current = tree.current := by
  induction names generalizing dotted with
  | nil => rfl
  | cons name names ih =>
      have ih := ih false
      rw [makeNames]
      rcases hmade : tree.makeNames place false names with ⟨fault | _, middle⟩ <;>
        rw [hmade] at ih
      · cases fault <;> exact ih
      · exact (current_makeName _ _ _ _).trans ih

end Names

section Entering

/-- What was entered can still be entered when all directories are kept. -/
theorem enter_of_kept (hkept : ∀ l, tree.get? l = some .directory → next.get? l = some .directory)
    (h : tree.enter place names = .ok goal) : next.enter place names = .ok goal := by
  induction names generalizing goal with
  | nil =>
      obtain ⟨rfl, hdirectory⟩ := checked_eq_ok_iff.1 h
      exact checked_eq_ok_iff.2 ⟨rfl, hkept _ hdirectory⟩
  | cons name names ih =>
      rw [enter] at h ⊢
      cases hmiddle : tree.enter place names with
      | error fault => simp [hmiddle] at h
      | ok middle =>
          simp only [hmiddle] at h
          simp only [ih hmiddle]
          split at h
          · cases h
          · next hshort =>
              obtain ⟨rfl, hdirectory⟩ := checked_eq_ok_iff.1 h
              rw [if_neg hshort]
              exact checked_eq_ok_iff.2 ⟨rfl, hkept _ hdirectory⟩

/-- A directory that was made in another one is there. -/
theorem exists_of_makeName_ok (h : tree.makeName place name dotted = (.ok (), next)) :
    name.utf8ByteSize ≤ nameLimit ∧ next.get? (place ++ [name]) = some .directory ∧
      ∀ l, tree.get? l = some .directory → next.get? l = some .directory := by
  have hchange := get?_makeName tree place name dotted
  rw [h] at hchange
  unfold makeName at h
  split at h
  · cases (Prod.mk.inj h).1
  · next hshort =>
      refine ⟨Nat.le_of_not_lt hshort, ?_, fun l hl => ?_⟩
      · split at h
        · next hdirectory =>
            obtain ⟨-, rfl⟩ := Prod.mk.inj h
            exact hdirectory
        · cases (Prod.mk.inj h).1
        · split at h
          · cases (Prod.mk.inj h).1
          · obtain ⟨-, rfl⟩ := Prod.mk.inj h
            rw [get?_put tree (by simp), if_pos rfl]
      · rcases hchange l with hsame | ⟨-, hnone, -⟩
        · exact hsame.trans hl
        · rw [hl] at hnone
          cases hnone

/-- Directories that were made can be entered. -/
theorem enter_of_makeNames (hplace : tree.get? place = some .directory)
    (h : tree.makeNames place dotted names = (.ok (), next)) :
    next.enter place names = .ok (place ++ names.reverse) := by
  induction names generalizing dotted next with
  | nil =>
      obtain ⟨-, rfl⟩ := Prod.mk.inj h
      exact checked_eq_ok_iff.2 ⟨by simp, by simpa using hplace⟩
  | cons name names ih =>
      rw [makeNames] at h
      split at h
      · cases (Prod.mk.inj h).1
      · cases (Prod.mk.inj h).1
      · next middle hmiddle =>
          obtain ⟨hshort, hdirectory, hkept⟩ := exists_of_makeName_ok h
          rw [enter, enter_of_kept hkept (ih hmiddle)]
          dsimp only
          rw [if_neg (Nat.not_lt_of_le hshort)]
          exact checked_eq_ok_iff.2 ⟨by simp, by simpa using hdirectory⟩

/-- Nothing is made where everything is there. -/
theorem makeNames_of_enter_ok (h : tree.enter place names = .ok goal) :
    tree.makeNames place dotted names = (.ok (), tree) := by
  induction names generalizing dotted goal with
  | nil => rfl
  | cons name names ih =>
      rw [enter] at h
      cases hmiddle : tree.enter place names with
      | error fault => simp [hmiddle] at h
      | ok middle =>
          simp only [hmiddle] at h
          obtain ⟨rfl, -⟩ := enter_eq_ok hmiddle
          split at h
          · cases h
          · next hshort =>
              obtain ⟨rfl, hdirectory⟩ := checked_eq_ok_iff.1 h
              rw [makeNames, ih hmiddle]
              dsimp only
              rw [makeName, if_neg hshort, hdirectory]

/-- What making directories comes to where they cannot be entered. If something else than a
directory or too long a name is in the way, nothing is made. If something is missing, all that can
go wrong is too long a name. -/
theorem makeNames_cases (hrooted : tree.Rooted) (hplace : tree.get? place = some .directory)
    {fault : FileFault} (h : tree.enter place names = .error fault) :
    fault = .notDirectory ∧
        (tree.makeNames place false names = (.error .alreadyExists, tree) ∨
          tree.makeNames place false names = (.error .notDirectory, tree)) ∨
      fault = .nameTooLong ∧ tree.makeNames place false names = (.error .nameTooLong, tree) ∨
      fault = .notFound ∧ tree.get? (place ++ names.reverse) = none ∧
        ∃ next, tree.makeNames place false names = (.ok (), next) ∨
          tree.makeNames place false names = (.error .nameTooLong, next) := by
  induction names generalizing fault with
  | nil => simp [enter, checked, hplace] at h
  | cons name names ih =>
      rw [makeNames]
      rw [enter] at h
      rw [List.reverse_cons, ← List.append_assoc]
      cases hmiddle : tree.enter place names with
      | error cause =>
          simp only [hmiddle] at h
          obtain rfl := Except.error.inj h
          rcases ih hmiddle with
            ⟨rfl, hmade | hmade⟩ | ⟨rfl, hmade⟩ | ⟨rfl, hnone, next, hmade | hmade⟩
          · exact .inl ⟨rfl, .inr (by rw [hmade])⟩
          · exact .inl ⟨rfl, .inr (by rw [hmade])⟩
          · exact .inr (.inl ⟨rfl, by rw [hmade]⟩)
          · have hmissing : tree.get? (place ++ names.reverse ++ [name]) = none :=
              hrooted.get?_eq_none hnone
            refine .inr (.inr ⟨rfl, hmissing, ?_⟩)
            have hchange := get?_makeNames tree place false names (place ++ names.reverse ++ [name])
            rw [hmade] at hchange
            -- nothing is made as far down as the last name
            have hnext : next.get? (place ++ names.reverse ++ [name]) = none := by
              rcases hchange with hsame | ⟨hway, -⟩
              · exact hsame.trans hmissing
              · have hlength := hway.length_le
                simp only [List.length_append, List.length_singleton] at hlength
                omega
            rw [hmade]
            dsimp only
            rw [makeName, hnext]
            by_cases hlong : nameLimit < name.utf8ByteSize
            · exact ⟨next, .inr (if_pos hlong)⟩
            · exact ⟨_, .inl (if_neg hlong)⟩
          · exact .inr (.inr ⟨rfl, hrooted.get?_eq_none hnone, next, .inr (by rw [hmade])⟩)
      | ok middle =>
          simp only [hmiddle] at h
          obtain ⟨rfl, -⟩ := enter_eq_ok hmiddle
          rw [makeNames_of_enter_ok hmiddle]
          dsimp only
          rw [makeName]
          by_cases hlong : nameLimit < name.utf8ByteSize
          · rw [if_pos hlong] at h ⊢
            exact .inr (.inl ⟨(Except.error.inj h).symm, rfl⟩)
          · rw [if_neg hlong] at h ⊢
            unfold checked at h
            dsimp only at h
            cases hentry : tree.get? (place ++ names.reverse ++ [name]) with
            | none =>
                rw [hentry] at h
                exact .inr (.inr ⟨(Except.error.inj h).symm, rfl, _, .inl rfl⟩)
            | some entry =>
                rw [hentry] at h
                cases entry with
                | directory => cases h
                | file content executable =>
                    exact .inl ⟨(Except.error.inj h).symm, .inl rfl⟩

end Entering

section Paths

/-- Entering one name more looks at the directory that the others led to. -/
theorem enter_cons_of_ok (h : tree.enter place names = .ok goal) :
    tree.enter place (name :: names) =
      if nameLimit < name.utf8ByteSize then .error .nameTooLong
      else tree.checked (.ok (goal ++ [name])) := by
  rw [enter, h]

/-- The end of a path with a name in it: the last name, or a dot behind it. -/
theorem dropWhile_cases (hwords : Path.words path.parts = names.reverse ++ [name]) :
    ∃ last before, path.parts.reverse.dropWhile (· = []) = last :: before ∧
      (last = ['.'] ∧ path.endsWithDot = true ∧
          Path.words before.reverse = names.reverse ++ [name] ∨
        last ≠ ['.'] ∧ path.endsWithDot = false ∧ String.ofList last = name ∧
          Path.words before.reverse = names.reverse) := by
  cases hend : path.parts.reverse.dropWhile (· = []) with
  | nil =>
      rw [words_of_dropWhile_nil hend] at hwords
      simp at hwords
  | cons last before =>
      refine ⟨last, before, rfl, ?_⟩
      have hsplit := words_of_dropWhile hend
      have hne := ne_nil_of_dropWhile hend
      have hdot : path.endsWithDot = (last == ['.']) := by
        rw [Path.endsWithDot, hend]
        rfl
      rw [hwords] at hsplit
      by_cases hlast : last = ['.']
      · rw [Path.words_cons_of_silent (by simp [hlast, Path.isSilent])] at hsplit
        exact .inl ⟨hlast, by simp [hdot, hlast], by simpa [Path.words] using hsplit.symm⟩
      · rw [Path.words_cons_of_not_silent (by simp [Path.isSilent, hne, hlast])] at hsplit
        obtain ⟨hnames, hname⟩ := List.append_inj' hsplit rfl
        exact .inr ⟨hlast, by simp [hdot, hlast], (List.singleton_inj.1 hname).symm, hnames.symm⟩

variable (hvalid : pathFault? path = none) (hplain : path.Plain)
  (hwords : Path.words path.parts = names.reverse ++ [name])

include hvalid hplain hwords

/-- Making a directory fails where what it is made in cannot be entered. -/
theorem makeDirectory_of_enter_error {fault : FileFault}
    (h : tree.enter (tree.start path) names = .error fault) :
    tree.makeDirectory path = .error fault := by
  obtain ⟨last, before, hend, ⟨-, -, hbefore⟩ | ⟨-, -, -, hbefore⟩⟩ := dropWhile_cases hwords
  · rw [makeDirectory, target_of_plain hvalid hplain hend, hbefore]
    simp [enter, h]
  · rw [makeDirectory, target_of_plain hvalid hplain hend, hbefore]
    simp [h]

/-- A path whose names cannot be entered is no directory. -/
theorem isDirectory_of_enter_error {fault : FileFault}
    (h : tree.enter (tree.start path) names = .error fault) : tree.isDirectory path = false := by
  rw [Bool.eq_false_iff]
  intro hdirectory
  obtain ⟨_, hplace⟩ := (isDirectory_iff_enter hvalid hplain).1 hdirectory
  rw [hwords] at hplace
  simp [enter, h] at hplace

/-- In a directory that can be entered, the last one is made. -/
theorem settle_makeDirectory (h : tree.enter (tree.start path) names = .ok place) :
    tree.settle path (tree.makeDirectory path) = tree.makeName place name path.endsWithDot := by
  have hdirectory : tree.isDirectory path = true ↔ ¬ nameLimit < name.utf8ByteSize ∧
      tree.get? (place ++ [name]) = some .directory := by
    rw [isDirectory_iff_enter hvalid hplain, hwords, List.reverse_append, List.reverse_reverse]
    show (∃ goal, tree.enter _ (name :: names) = .ok goal) ↔ _
    rw [enter_cons_of_ok h]
    split
    · simp [*]
    · simp [*, checked_eq_ok_iff]
  obtain ⟨last, before, hend, ⟨rfl, hdot, hbefore⟩ | ⟨hlast, hdot, rfl, hbefore⟩⟩ :=
    dropWhile_cases hwords
  · have hmake : tree.makeDirectory path =
        (tree.enter (tree.start path) (name :: names)).bind fun _ => .error .alreadyExists := by
      have hnames : (names.reverse ++ [name]).reverse = name :: names := by simp
      rw [makeDirectory, target_of_plain hvalid hplain hend, hbefore, hnames]
      cases tree.enter (tree.start path) (name :: names) <;> rfl
    rw [hmake, enter_cons_of_ok h, makeName, hdot]
    by_cases hlong : nameLimit < name.utf8ByteSize
    · simp [settle, hdirectory, hlong, Except.bind]
    · unfold checked
      cases hentry : tree.get? (place ++ [name]) with
      | none => simp [settle, hdirectory, hentry, hlong, Except.bind]
      | some entry => cases entry <;> simp [settle, hdirectory, hentry, hlong, Except.bind]
  · rw [makeDirectory, target_of_plain hvalid hplain hend, hbefore, hdot, List.reverse_reverse, h]
    simp only [hlast, if_false, makeName]
    by_cases hlong : nameLimit < (String.ofList last).utf8ByteSize
    · simp [settle, hdirectory, hlong]
    · cases hentry : tree.get? (place ++ [String.ofList last]) with
      | none => simp [settle, hentry, hlong]
      | some entry => cases entry <;> simp [settle, hdirectory, hentry, hlong]

/-- If the paths above are made from the top, then so is the path itself. -/
theorem createAll_cons_of_plain (hrooted : tree.Rooted) {rest : List Path}
    (hrest : tree.createAll rest = tree.makeNames (tree.start path) false names) :
    tree.createAll (path :: rest) =
      tree.makeNames (tree.start path) path.endsWithDot (name :: names) := by
  have hstart := hrooted.start path
  rw [makeNames, ← hrest, createAll]
  cases henter : tree.enter (tree.start path) names with
  | ok place =>
      have hsettle := settle_makeDirectory hvalid hplain hwords henter
      rw [(enter_eq_ok henter).1] at hsettle
      have hnothing : tree.createAll rest = (.ok (), tree) :=
        hrest.trans (makeNames_of_enter_ok henter)
      rw [hnothing]
      dsimp only
      rw [← hsettle]
      split <;> rfl
  | error fault =>
      have hmake := makeDirectory_of_enter_error hvalid hplain hwords henter
      have hsettle : ∀ cause, tree.settle path (.error cause) = (.error cause, tree) := by
        simp [settle, isDirectory_of_enter_error hvalid hplain hwords henter]
      rw [hmake]
      rcases makeNames_cases hrooted hstart henter with ⟨rfl, hmade | hmade⟩ | ⟨rfl, hmade⟩ |
        ⟨rfl, -, next, hmade | hmade⟩ <;>
        rw [hrest, hmade]
      · exact hsettle _
      · exact hsettle _
      · exact hsettle _
      · have hcurrent := current_makeNames tree (tree.start path) false names
        rw [hmade] at hcurrent
        have hsame : next.start path = tree.start path := by
          rw [start, start, show next.current = tree.current from hcurrent]
        have hentered := enter_of_makeNames hstart hmade
        rw [← hsame] at hentered
        have hlast := settle_makeDirectory hvalid hplain hwords hentered
        rwa [hsame] at hlast

end Paths

/-- Making all missing directories of a plain path is making its names from the top. -/
theorem createDirectories_of_plain (hrooted : tree.Rooted) (hvalid : pathFault? path = none)
    (hplain : path.Plain) :
    tree.createDirectories path =
      tree.makeNames (tree.start path) path.endsWithDot (Path.words path.parts).reverse := by
  generalize hn : (Path.words path.parts).length = n
  induction n generalizing path with
  | zero =>
      have hwords := List.length_eq_zero_iff.1 hn
      have hdirectory : tree.isDirectory path = true := by
        rw [isDirectory_iff_enter hvalid hplain, hwords]
        exact ⟨_, checked_eq_ok_iff.2 ⟨rfl, hrooted.start path⟩⟩
      rw [createDirectories_of_has (.inr hdirectory), hwords]
      rfl
  | succ n ih =>
      have hne : path.text ≠ "" := by
        intro hempty
        simp [pathFault?, hempty] at hvalid
      rw [createDirectories, List.filter_cons_of_pos (by simpa using hne)]
      rcases path.parents_cases with ⟨hshort, hempty⟩ | ⟨above, part, hparents, habove, hne', hend⟩
      · have hnone : (path.parents.filter fun above => above.text ≠ "") = [] :=
          List.filter_eq_nil_iff.2 fun above hmem => by simp [hempty above hmem]
        obtain ⟨name, hwords⟩ := List.length_eq_one_iff.1 (Nat.le_antisymm hshort (by omega))
        have hsplit : Path.words path.parts = ([] : List String).reverse ++ [name] := hwords
        rw [hnone, hwords]
        exact createAll_cons_of_plain hvalid hplain hsplit hrooted rfl
      · have hwords := habove.words_eq
        have hlength : (Path.words above.parts).length = n := by
          simpa [hwords] using hn
        have hstart : tree.start above = tree.start path := by
          rw [start, start, habove.isAbsolute_eq]
        have hrest := ih (pathFault?_of_above habove hne' hvalid) (habove.plain hplain) hlength
        rw [createDirectories, ← hparents, hstart] at hrest
        have hrest' : tree.createAll (path.parents.filter fun above => above.text ≠ "") =
            tree.makeNames (tree.start path) false (Path.words above.parts).reverse := by
          rcases hend with hdot | hnone
          · rwa [hdot] at hrest
          · rw [hnone] at hrest ⊢
            exact hrest
        rw [createAll_cons_of_plain hvalid hplain (by rw [hwords, List.reverse_reverse]) hrooted
          hrest', hwords, List.reverse_append]
        rfl

end MiniProgram.FileTree
