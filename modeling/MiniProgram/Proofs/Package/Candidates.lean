import Mathlib.Data.List.Perm.Basic
import MiniProgram.Machine
import MiniProgram.Package.Resolver
import MiniProgram.Proofs.Files.Names
import MiniProgram.Proofs.Host.Question
import MiniProgram.Proofs.Path.Order

/-!
# Where a package could be installed

`IsCandidates tree name root directories` says what the candidates for a package are: the direct
installation, and behind it the copies of other packages, in the order of paths. In a proper tree
there is one list of candidates (`IsCandidates.unique`), as two copies with the same components have
the same path. So it does not matter in which order a host lists the names in a directory
(`isCandidates_candidates`).
-/

namespace MiniProgram.Package

/-- `Lists tree listed` says that directories are listed completely, in any order. -/
def Lists (tree : FileTree) (listed : Path → List String) : Prop :=
  ∀ path, (listed path).Perm (tree.names path)

/-- The host that works on a machine and lists the names in directories in an order of its own. -/
def listing (behaviour : Behaviour) (listed : FileTree → Path → List String) :
    Host (StateM Machine) :=
  { Machine.host behaviour with names := fun path => Machine.ask fun files => listed files path }

example (behaviour : Behaviour) : listing behaviour FileTree.names = Machine.host behaviour := rfl

/-- The packages in the folder of a project: its entries, where an entry that groups packages is
replaced by what is in it. -/
def entries (listed : Path → List String) (root : Path) : List Path :=
  (listed (root / folder)).flatMap fun name =>
    if isScope name then (listed (root / folder / name)).map (root / folder / name / ·)
    else [root / folder / name]

/-- `IsCandidates tree name root directories` says that `directories` are the candidates for a
package in the right order. -/
def IsCandidates (tree : FileTree) (name : String) (root : Path) (directories : List Path) : Prop :=
  ∃ copies, directories = (root / folder / name) :: copies ∧
    copies.Perm ((entries tree.names root).map (· / folder / name)) ∧
    copies.Pairwise fun a b => a.key ≤ b.key

section Copies

variable {listed : Path → List String} {root a b : Path} {name : String}

/-- The folder of packages has a name that a file can have. -/
theorem isFileName_folder : Path.isFileName folder = true := by decide

/-- A package in the folder of a project is one name or two below it. -/
theorem exists_of_mem_entries (hnames : ∀ path, ∀ name ∈ listed path, Path.isFileName name = true)
    (h : a ∈ entries listed root) :
    ∃ names, (∀ name ∈ names, Path.isFileName name = true) ∧
      a = (root / folder).descend names := by
  obtain ⟨name, hname, ha⟩ := List.mem_flatMap.1 h
  split at ha
  · obtain ⟨child, hchild, rfl⟩ := List.mem_map.1 ha
    exact ⟨[name, child], by simp [hnames _ _ hname, hnames _ _ hchild], rfl⟩
  · obtain rfl := List.mem_singleton.1 ha
    exact ⟨[name], by simpa using hnames _ _ hname, rfl⟩

/-- Copies with the same components have the same path. An absolute name is the path of every
copy. -/
theorem copy_eq_of_key_eq (hnames : ∀ path, ∀ name ∈ listed path, Path.isFileName name = true)
    (ha : a ∈ entries listed root) (hb : b ∈ entries listed root)
    (h : (a / folder / name).key = (b / folder / name).key) :
    a / folder / name = b / folder / name := by
  by_cases habsolute : (⟨name⟩ : Path).isAbsolute = true
  · exact (Path.join_of_isAbsolute _ habsolute).trans (Path.join_of_isAbsolute _ habsolute).symm
  · obtain ⟨names, hall, rfl⟩ := exists_of_mem_entries hnames ha
    obtain ⟨names', hall', rfl⟩ := exists_of_mem_entries hnames hb
    have hcomponents : ∀ base : Path, (base / folder / name).components =
        base.components ++ .normal folder :: Path.spelled (⟨name⟩ : Path).parts := by
      intro base
      refine (Path.components_join (by simpa using habsolute) fun hempty =>
        absurd hempty (Path.text_div_ne_empty base isFileName_folder)).trans ?_
      rw [Path.components_div base isFileName_folder, List.append_assoc]
      rfl
    rw [Path.key_eq_iff, hcomponents, hcomponents, List.append_left_inj,
      Path.components_descend hall, Path.components_descend hall', List.append_right_inj] at h
    have hinjective : Function.Injective Component.normal := fun _ _ => Component.normal.inj
    rw [List.map_injective_iff.2 hinjective h]

end Copies

section Order

variable {tree : FileTree} {listed : Path → List String} {name : String} {root : Path}
  {directories others : List Path}

/-- A path does not stand behind another one if its key is not higher. -/
theorem notBehind_iff (a b : Path) : notBehind a b = true ↔ a.key ≤ b.key := by
  rw [notBehind, Bool.not_eq_true', ← Bool.not_eq_true, Path.precedes_iff, not_lt]
  rfl

/-- However directories are listed, the packages of a project are the same up to their order. -/
theorem entries_perm (h : Lists tree listed) (root : Path) :
    (entries listed root).Perm (entries tree.names root) := by
  refine (h _).flatMap fun name _ => ?_
  split
  · exact (h _).map _
  · exact .refl _

/-- There is one list of candidates. -/
theorem IsCandidates.unique (htree : tree.Proper) (h : IsCandidates tree name root directories)
    (h' : IsCandidates tree name root others) : directories = others := by
  obtain ⟨copies, rfl, hperm, hsorted⟩ := h
  obtain ⟨copies', rfl, hperm', hsorted'⟩ := h'
  have hantisymm : ∀ a b, a ∈ copies → b ∈ copies' → a.key ≤ b.key → b.key ≤ a.key → a = b := by
    intro a b ha hb hle hge
    obtain ⟨owner, howner, rfl⟩ := List.mem_map.1 (hperm.subset ha)
    obtain ⟨owner', howner', rfl⟩ := List.mem_map.1 (hperm'.subset hb)
    exact copy_eq_of_key_eq (fun _ _ => FileTree.isFileName_of_mem_names htree) howner howner'
      (le_antisymm hle hge)
  rw [List.Perm.eq_of_pairwise hantisymm hsorted hsorted' (hperm.trans hperm'.symm)]

/-- However directories are listed, what is tried are the candidates. -/
theorem isCandidates_candidates (h : Lists tree listed) (name : String) (root : Path) :
    IsCandidates tree name root (candidates name root (entries listed root)) := by
  refine ⟨installed name (entries listed root), rfl, ?_, ?_⟩
  · exact (List.mergeSort_perm _ _).trans ((entries_perm h root).map _)
  · have htrans : ∀ a b c, notBehind a b = true → notBehind b c = true → notBehind a c = true := by
      simp only [notBehind_iff]
      exact fun _ _ _ => le_trans
    have htotal : ∀ a b, (notBehind a b || notBehind b a) = true := by
      simp only [Bool.or_eq_true, notBehind_iff]
      exact fun _ _ => le_total _ _
    exact (List.pairwise_mergeSort htrans htotal _).imp fun h => (notBehind_iff _ _).1 h

end Order

section Listing

variable {behaviour : Behaviour} {listed : FileTree → Path → List String}

/-- The packages behind an entry are looked up in the directories as they are listed. -/
theorem asks_ownersOf (modules : Path) (name : String) :
    Asks id (ownersOf (listing behaviour listed) modules name) fun machine =>
      if isScope name then (listed machine.files (modules / name)).map (modules / name / ·)
      else [modules / name] := by
  intro machine
  rw [ownersOf]
  split <;> exact ⟨rfl, rfl⟩

/-- The packages in the folder of a project are read off its files. -/
theorem asks_owners (root : Path) :
    Asks id (owners (listing behaviour listed) root) fun machine =>
      entries (listed machine.files) root := by
  have hnames : Asks id ((listing behaviour listed).names (root / folder)) fun machine =>
      listed machine.files (root / folder) := fun _ => ⟨rfl, rfl⟩
  exact hnames.bind fun _ => (Asks.mapM (asks_ownersOf (root / folder))).bind fun _ => asks_pure _

end Listing

end MiniProgram.Package
