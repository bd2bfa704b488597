import Mathlib.Data.List.Forall2
import Mathlib.Data.List.Induction
import MiniProgram.Proofs.Foremost
import MiniProgram.Proofs.Host.Action
import MiniProgram.Proofs.Package.Candidates

/-!
# Which installation is chosen

Read `resolve_selects` first: whatever order directories are listed in, resolving a package has one
outcome, which `Selects` describes. Candidates without a manifest do not count. Of the others, the
first one with an invalid manifest is reported, even if it would not have been chosen. If all are
valid the highest version is chosen, and among equal versions the first one.

Versions are compared by `versionRank`, where a text that is no version comes first.
-/

namespace MiniProgram.Package

open Json

/-- What a version is ordered by. A text that is no version is lowest. -/
def versionRank : Option Version → List ℕ
  | none => []
  | some version => version.ranks

/-- Versions are ordered as their ranks are, and a text that is none is the lowest. -/
theorem beforeOption_iff (a b : Option Version) :
    Version.beforeOption a b = true ↔ versionRank a < versionRank b := by
  cases a with
  | none => cases b <;> simp [Version.beforeOption, versionRank, Version.ranks]
  | some a =>
      cases b with
      | none => simp [Version.beforeOption, versionRank]
      | some b => exact decide_eq_true_iff

/-- The first element of a list that has a property is unique. -/
theorem first_unique {α : Type} {P : α → Prop} {before before' behind behind' : List α} {a a' : α}
    (h : before ++ a :: behind = before' ++ a' :: behind') (hbefore : ∀ x ∈ before, ¬ P x)
    (ha : P a) (hbefore' : ∀ x ∈ before', ¬ P x) (ha' : P a') : a = a' := by
  induction before generalizing before' with
  | nil =>
      cases before' with
      | nil => exact (List.cons.inj h).1
      | cons first rest =>
          obtain ⟨rfl, -⟩ := List.cons.inj h
          exact absurd ha (hbefore' a List.mem_cons_self)
  | cons first before ih =>
      rw [List.forall_mem_cons] at hbefore
      cases before' with
      | nil =>
          obtain ⟨rfl, -⟩ := List.cons.inj h
          exact absurd ha' hbefore.1
      | cons first' rest =>
          rw [List.forall_mem_cons] at hbefore'
          exact ih (List.cons.inj h).2 hbefore.2 hbefore'.2

section Best

/-- What an installation is ordered by. -/
def rank (found : Installation) : List ℕ :=
  versionRank found.manifest.version?

/-- `IsBest found chosen` says that an installation has the highest version, and that it is the
first one that has. -/
def IsBest (found : List Installation) (chosen : Installation) : Prop :=
  ∃ before behind, found = before ++ chosen :: behind ∧
    (∀ other ∈ before, rank other < rank chosen) ∧ ∀ other ∈ behind, rank other ≤ rank chosen

/-- The best installation is the first one of the highest rank. -/
theorem isBest_iff {found : List Installation} {chosen : Installation} :
    IsBest found chosen ↔ Foremost rank found chosen := Iff.rfl

/-- There is only one best installation. -/
theorem IsBest.unique {found : List Installation} {chosen other : Installation}
    (h : IsBest found chosen) (h' : IsBest found other) : chosen = other :=
  (isBest_iff.1 h).unique (isBest_iff.1 h')

/-- The best installation is found unless there is none. -/
theorem best_cases (found : List Installation) :
    found = [] ∧ best found = none ∨
      ∃ chosen, best found = some chosen ∧ IsBest found chosen := by
  simp only [isBest_iff]
  refine foldl_foremost (fun _ => rfl) (fun old next hlt => ?_) (fun old next hle => ?_) found
  · exact if_pos ((beforeOption_iff _ _).2 hlt)
  · exact if_neg (mt (beforeOption_iff _ _).1 (not_lt.2 hle))

end Best

section Manifests

variable {tree : FileTree}

/-- The candidates that count: those with a manifest, valid or not. -/
def kept (tree : FileTree) (directories : List Path) : List Path :=
  directories.filter fun directory => tree.isFile (directory / Manifest.fileName)

/-- The manifest in a directory, or why it is invalid. -/
def manifestIn (tree : FileTree) (directory : Path) : Except String Manifest :=
  match tree.readText (directory / Manifest.fileName) with
  | .error fault => .error fault.message
  | .ok text => (decode Manifest.decode text).mapError Fault.message

/-- What reading the manifest of a candidate gives. -/
def examined (tree : FileTree) (directory : Path) : Except ResolveFault (Option Installation) :=
  if tree.isFile (directory / Manifest.fileName) then
    match manifestIn tree directory with
    | .error reason => .error (.invalidManifest (directory / Manifest.fileName) reason)
    | .ok manifest => .ok (some ⟨directory, manifest⟩)
  else .ok none

variable {behaviour : Behaviour} {listed : FileTree → Path → List String} {machine : Machine}

/-- Reading a manifest answers what the files of the machine hold, and changes nothing. -/
theorem asks_readManifest (directory : Path) :
    Asks id (readManifest (listing behaviour listed) directory).run fun machine =>
      examined machine.files directory := by
  intro machine
  have hisFile : ∀ path, ((listing behaviour listed).isFile path).run machine =
      (machine.files.isFile path, machine) := fun _ => rfl
  have hreadText : ∀ path, ((listing behaviour listed).readText path).run machine =
      (machine.files.readText path, machine) := fun _ => rfl
  show (_ : Except _ _ × Machine).1 = examined machine.files directory ∧ _
  rw [readManifest, run_lift_bind, hisFile, examined]
  cases machine.files.isFile (directory / Manifest.fileName) with
  | false => exact ⟨rfl, rfl⟩
  | true =>
      simp only [if_true]
      rw [run_lift_bind, hreadText, manifestIn]
      cases machine.files.readText (directory / Manifest.fileName) with
      | error fault => exact ⟨rfl, rfl⟩
      | ok text =>
          simp only
          cases decode Manifest.decode text <;> exact ⟨rfl, rfl⟩

/-- `Reads tree directory found` says that `found` is the installation in a directory with a valid
manifest. -/
def Reads (tree : FileTree) (directory : Path) (found : Installation) : Prop :=
  found.directory = directory ∧ manifestIn tree directory = .ok found.manifest

/-- `FirstInvalid tree directories directory reason` says that the first directory with an invalid
manifest is `directory`, and why its manifest is invalid. -/
def FirstInvalid (tree : FileTree) (directories : List Path) (directory : Path) (reason : String) :
    Prop :=
  ∃ before behind, directories = before ++ directory :: behind ∧
    (∀ other ∈ before, ∃ found, Reads tree other found) ∧ manifestIn tree directory = .error reason

/-- `Chosen tree directories chosen` says that all directories have valid manifests, and which of
the installations is the best one. -/
def Chosen (tree : FileTree) (directories : List Path) (chosen : Installation) : Prop :=
  ∃ found, List.Forall₂ (Reads tree) directories found ∧ IsBest found chosen

variable {directories : List Path} {directory directory' : Path} {reason reason' : String}
  {chosen chosen' found : Installation}

/-- No installation is read from a directory with an invalid manifest. -/
theorem not_reads_of_error (h : manifestIn tree directory = .error reason) :
    ¬ ∃ found, Reads tree directory found := by
  rintro ⟨found, -, hok⟩
  rw [hok] at h
  cases h

/-- A directory gives at most one installation. -/
theorem reads_rightUnique : Relator.RightUnique (Reads tree) := by
  rintro directory ⟨_, manifest⟩ ⟨_, manifest'⟩ ⟨hdirectory, hok⟩ ⟨hdirectory', hok'⟩
  obtain rfl : manifest = manifest' := Except.ok.inj (hok.symm.trans hok')
  cases hdirectory
  cases hdirectory'
  rfl

/-- Where installations were read from all directories, each directory gives one. -/
theorem exists_reads {all : List Installation} (h : List.Forall₂ (Reads tree) directories all) :
    ∀ directory ∈ directories, ∃ found, Reads tree directory found := by
  induction h with
  | nil => simp
  | cons hread _ ih => exact List.forall_mem_cons.2 ⟨⟨_, hread⟩, ih⟩

/-- The first invalid manifest stays the first one behind a valid one. -/
theorem FirstInvalid.cons (h : FirstInvalid tree directories directory reason)
    (hreads : Reads tree directory' found) :
    FirstInvalid tree (directory' :: directories) directory reason := by
  obtain ⟨before, behind, rfl, hbefore, hinvalid⟩ := h
  exact ⟨directory' :: before, behind, rfl, List.forall_mem_cons.2 ⟨⟨found, hreads⟩, hbefore⟩,
    hinvalid⟩

/-- There is only one first invalid manifest, with one reason. -/
theorem FirstInvalid.unique (h : FirstInvalid tree directories directory reason)
    (h' : FirstInvalid tree directories directory' reason') :
    directory = directory' ∧ reason = reason' := by
  obtain ⟨before, behind, hsplit, hbefore, hinvalid⟩ := h
  obtain ⟨before', behind', hsplit', hbefore', hinvalid'⟩ := h'
  obtain rfl : directory = directory' := first_unique (hsplit.symm.trans hsplit')
    (fun d hd => not_not.2 (hbefore d hd)) (not_reads_of_error hinvalid)
    (fun d hd => not_not.2 (hbefore' d hd)) (not_reads_of_error hinvalid')
  exact ⟨rfl, Except.error.inj (hinvalid.symm.trans hinvalid')⟩

/-- Where a manifest is invalid there is a directory. -/
theorem FirstInvalid.ne_nil (h : FirstInvalid tree directories directory reason) :
    directories ≠ [] := by
  obtain ⟨before, behind, rfl, -⟩ := h
  simp

/-- There is only one chosen installation. -/
theorem Chosen.unique (h : Chosen tree directories chosen) (h' : Chosen tree directories chosen') :
    chosen = chosen' := by
  obtain ⟨found, hreads, hbest⟩ := h
  obtain ⟨found', hreads', hbest'⟩ := h'
  obtain rfl := List.right_unique_forall₂' reads_rightUnique hreads hreads'
  exact hbest.unique hbest'

/-- Where an installation is chosen no manifest is invalid. -/
theorem Chosen.not_firstInvalid (h : Chosen tree directories chosen) :
    ¬ FirstInvalid tree directories directory reason := by
  rintro ⟨before, behind, rfl, -, hinvalid⟩
  obtain ⟨found, hreads, -⟩ := h
  exact not_reads_of_error hinvalid (exists_reads hreads directory (by simp))

/-- Where an installation is chosen there is a directory. -/
theorem Chosen.ne_nil (h : Chosen tree directories chosen) : directories ≠ [] := by
  rintro rfl
  obtain ⟨found, hreads, before, behind, rfl, -⟩ := h
  simp at hreads

/-- Reading the manifests of the candidates ends at the first invalid one, or it finds an
installation in each directory that counts. -/
theorem mapM_examined_cases (tree : FileTree) (directories : List Path) :
    (∃ directory reason, FirstInvalid tree (kept tree directories) directory reason ∧
      directories.mapM (examined tree) =
        .error (.invalidManifest (directory / Manifest.fileName) reason)) ∨
      ∃ found, directories.mapM (examined tree) = .ok found ∧
        List.Forall₂ (Reads tree) (kept tree directories) (found.filterMap id) := by
  induction directories with
  | nil => exact .inr ⟨[], rfl, .nil⟩
  | cons directory directories ih =>
      rw [List.mapM_cons]
      by_cases hfile : tree.isFile (directory / Manifest.fileName) = true
      · have hkept : kept tree (directory :: directories) = directory :: kept tree directories :=
          List.filter_cons_of_pos hfile
        rw [hkept, examined, if_pos hfile]
        cases hmanifest : manifestIn tree directory with
        | error reason =>
            exact .inl ⟨directory, reason, ⟨[], _, rfl, by simp, hmanifest⟩, rfl⟩
        | ok manifest =>
            have hreads : Reads tree directory ⟨directory, manifest⟩ := ⟨rfl, hmanifest⟩
            rcases ih with ⟨invalid, reason, hinvalid, hrest⟩ | ⟨found, hrest, hfound⟩
            · exact .inl ⟨invalid, reason, hinvalid.cons hreads, by rw [hrest]; rfl⟩
            · exact .inr ⟨some ⟨directory, manifest⟩ :: found, by rw [hrest]; rfl,
                .cons hreads hfound⟩
      · have hkept : kept tree (directory :: directories) = kept tree directories :=
          List.filter_cons_of_neg hfile
        rw [hkept, examined, if_neg hfile]
        rcases ih with ⟨invalid, reason, hinvalid, hrest⟩ | ⟨found, hrest, hfound⟩
        · exact .inl ⟨invalid, reason, hinvalid, by rw [hrest]; rfl⟩
        · exact .inr ⟨none :: found, by rw [hrest]; rfl, hfound⟩

end Manifests

section Outcomes

variable {m : Type → Type} [Monad m]

/-- `Selects host tree name root directories outcome` says what comes of resolving a package whose
candidates are some directories. Only those with a manifest count. An executable is declared unless
the field is missing or empty. -/
inductive Selects (host : Host m) (tree : FileTree) (name : String) (root : Path)
    (directories : List Path) : Except ResolveFault (Implementation m) → Prop where
  | invalidManifest (directory : Path) (reason : String)
    (hinvalid : FirstInvalid tree (kept tree directories) directory reason) :
    Selects host tree name root directories
      (.error (.invalidManifest (directory / Manifest.fileName) reason))
  | packageNotFound (hnone : kept tree directories = []) :
    Selects host tree name root directories (.error (.packageNotFound name root))
  | noExecutable (chosen : Installation) (hchosen : Chosen tree (kept tree directories) chosen)
    (hnone : chosen.manifest.executables = none ∨ chosen.manifest.executables = some (.named [])) :
    Selects host tree name root directories (.error (.noExecutable chosen.manifest.name))
  | chosen (chosen : Installation) (file : String)
    (hchosen : Chosen tree (kept tree directories) chosen)
    (hfile : chosen.manifest.executable? = some file) :
    Selects host tree name root directories (.ok {
      compiler := CompilerProgram.compiler host ⟨chosen.directory / file, []⟩
      baseOptions := chosen.manifest.baseOptions
      version := some chosen.manifest.version })

variable {host : Host m} {tree : FileTree} {name : String} {root : Path} {directories : List Path}
  {outcome other : Except ResolveFault (Implementation m)}

/-- A manifest gives no executable exactly if it names none, or an empty list of them. -/
theorem executable?_eq_none_iff (manifest : Manifest) :
    manifest.executable? = none ↔
      manifest.executables = none ∨ manifest.executables = some (.named []) := by
  rw [Manifest.executable?]
  split
  · next hnone => simp [hnone]
  · next hsingle => simp [hsingle]
  · next files hnamed => cases files <;> simp [hnamed, Table.get?]

/-- The candidates determine the outcome. -/
theorem Selects.unique (h : Selects host tree name root directories outcome)
    (h' : Selects host tree name root directories other) : outcome = other := by
  cases h with
  | invalidManifest directory reason hinvalid =>
      cases h' with
      | invalidManifest directory' reason' hinvalid' =>
          obtain ⟨rfl, rfl⟩ := hinvalid.unique hinvalid'
          rfl
      | packageNotFound hnone => exact absurd hnone hinvalid.ne_nil
      | noExecutable _ hchosen => exact absurd hinvalid hchosen.not_firstInvalid
      | chosen _ _ hchosen => exact absurd hinvalid hchosen.not_firstInvalid
  | packageNotFound hnone =>
      cases h' with
      | invalidManifest _ _ hinvalid => exact absurd hnone hinvalid.ne_nil
      | packageNotFound => rfl
      | noExecutable _ hchosen => exact absurd hnone hchosen.ne_nil
      | chosen _ _ hchosen => exact absurd hnone hchosen.ne_nil
  | noExecutable chosen hchosen hnone =>
      cases h' with
      | invalidManifest _ _ hinvalid => exact absurd hinvalid hchosen.not_firstInvalid
      | packageNotFound hnone => exact absurd hnone hchosen.ne_nil
      | noExecutable chosen' hchosen' => rw [hchosen.unique hchosen']
      | chosen chosen' file hchosen' hfile =>
          obtain rfl := hchosen.unique hchosen'
          simp [(executable?_eq_none_iff _).2 hnone] at hfile
  | chosen chosen file hchosen hfile =>
      cases h' with
      | invalidManifest _ _ hinvalid => exact absurd hinvalid hchosen.not_firstInvalid
      | packageNotFound hnone => exact absurd hnone hchosen.ne_nil
      | noExecutable chosen' hchosen' hnone =>
          obtain rfl := hchosen.unique hchosen'
          simp [(executable?_eq_none_iff _).2 hnone] at hfile
      | chosen chosen' file' hchosen' hfile' =>
          obtain rfl := hchosen.unique hchosen'
          rw [Option.some.inj (hfile.symm.trans hfile')]

/-- What is made of the manifests of the candidates. -/
def conclude (host : Host m) (name : String) (root : Path) (found : List (Option Installation)) :
    Except ResolveFault (Implementation m) :=
  match best (found.filterMap id) with
  | none => .error (.packageNotFound name root)
  | some installation => implementation host installation

/-- What is made of the manifests is the outcome that the candidates determine. -/
theorem selects_conclude (host : Host m) (tree : FileTree) (name : String) (root : Path)
    (directories : List Path) :
    Selects host tree name root directories
      (directories.mapM (examined tree) >>= conclude host name root) := by
  rcases mapM_examined_cases tree directories with
    ⟨directory, reason, hinvalid, hrun⟩ | ⟨found, hrun, hfound⟩
  · rw [hrun]
    exact .invalidManifest directory reason hinvalid
  · rw [hrun]
    show Selects host tree name root directories (conclude host name root found)
    rcases best_cases (found.filterMap id) with ⟨hnil, hnone⟩ | ⟨chosen, hsome, hbest⟩
    · rw [conclude, hnone]
      rw [hnil] at hfound
      exact .packageNotFound (List.forall₂_nil_right_iff.1 hfound)
    · have hchosen : Chosen tree (kept tree directories) chosen := ⟨_, hfound, hbest⟩
      rw [conclude, hsome]
      show Selects host tree name root directories (implementation host chosen)
      rw [implementation]
      cases hfile : chosen.manifest.executable? with
      | none => exact .noExecutable chosen hchosen ((executable?_eq_none_iff _).1 hfile)
      | some file => exact .chosen chosen file hchosen hfile

end Outcomes

section Resolving

variable {behaviour : Behaviour} {listed : FileTree → Path → List String} {machine : Machine}

/-- What is made of the manifests is answered without a change of the machine. -/
theorem asks_conclude (name : String) (root : Path) (found : List (Option Installation)) :
    Asks (id : Machine → Machine) (match best (found.filterMap id) with
      | none => throw (.packageNotFound name root)
      | some installation => ofExcept (implementation (listing behaviour listed) installation) :
        ExceptT ResolveFault (StateM Machine) (Implementation (StateM Machine))).run
      fun _ => conclude (Machine.host behaviour) name root found := by
  intro machine
  rw [conclude]
  cases best (found.filterMap id) with
  | none => exact ⟨rfl, rfl⟩
  | some chosen =>
      simp only [implementation]
      cases chosen.manifest.executable? <;> exact ⟨rfl, rfl⟩

/-- Resolving a package examines the candidates one by one, concludes from that, and leaves the
machine as it is. -/
theorem run_resolve (name : String) (root : Path) :
    (resolve (listing behaviour listed) name root).run.run machine =
      ((candidates name root (entries (listed machine.files) root)).mapM
        (examined machine.files) >>= conclude (Machine.host behaviour) name root, machine) := by
  have hresolve : Asks id (resolve (listing behaviour listed) name root).run fun machine =>
      (candidates name root (entries (listed machine.files) root)).mapM (examined machine.files) >>=
        conclude (Machine.host behaviour) name root :=
    (asks_owners root).liftBind fun _ =>
      (Asks.exceptMapM asks_readManifest).exceptBind fun found => asks_conclude name root found
  exact hresolve.run_eq machine

/-- Resolving a package in a proper tree has the same outcome for every order in which directories
are listed, and it changes nothing. The outcome is the only one that comes of the candidates in
their order. -/
theorem resolve_selects (behaviour : Behaviour) (machine : Machine) (name : String) (root : Path)
    (htree : machine.files.Proper) :
    ∃ directories outcome, IsCandidates machine.files name root directories ∧
      Selects (Machine.host behaviour) machine.files name root directories outcome ∧
      (∀ other, Selects (Machine.host behaviour) machine.files name root directories other →
        other = outcome) ∧
      ∀ listed, Lists machine.files (listed machine.files) →
        (resolve (listing behaviour listed) name root).run.run machine = (outcome, machine) := by
  have hsame : Lists machine.files machine.files.names := fun _ => .refl _
  have hcandidates := isCandidates_candidates hsame name root
  have hselects := selects_conclude (Machine.host behaviour) machine.files name root
    (candidates name root (entries machine.files.names root))
  refine ⟨_, _, hcandidates, hselects, fun other hother => hother.unique hselects, ?_⟩
  intro listed hlisted
  rw [run_resolve, (isCandidates_candidates hlisted name root).unique htree hcandidates]

section Nested

/-- No file is a program. -/
def idle : Behaviour := fun _ _ _ => .error .permissionDenied

/-- A directory with a package of a version that declares an executable. -/
def packageAt (location : Location) (version : String) : List (Location × Entry) := [
  (location, .directory),
  (location ++ [Manifest.fileName],
    .file ("\x7b\"name\":\"c\",\"bin\":\"run\",\"version\":\"" ++ version ++ "\"\x7d").toUTF8
      false)]

/-- A project with three copies of a package, of which two have the highest version. -/
def nestedProject : Machine where
  files := {
    entries :=
      [([folder], .directory), ([folder, "b"], .directory), ([folder, "@a"], .directory),
        ([folder, "@a", "a"], .directory), ([folder, "b", folder], .directory),
        ([folder, "@a", "a", folder], .directory)] ++
      packageAt [folder, "b", folder, "c"] "2.0.0" ++
      packageAt [folder, "@a", "a", folder, "c"] "v2.0.0" ++ packageAt [folder, "c"] "1.9.0"
    current := [] }
  journal := []

/-- Where the copies of the package could be, in the order of paths. -/
def nestedCopies : List Path := [
  ⟨"node_modules/@a/a/node_modules/c"⟩,
  ⟨"node_modules/b/node_modules/c"⟩,
  ⟨"node_modules/c/node_modules/c"⟩]

/-- The copy that comes first by its path is chosen, also where directories are listed backwards. -/
theorem resolve_selects_backwards :
    nestedProject.files.Proper ∧
      ∃ outcome,
        Selects (Machine.host idle) nestedProject.files "c" ⟨""⟩
          (⟨"node_modules/c"⟩ :: nestedCopies) outcome ∧
        (resolve (listing idle fun files path => (files.names path).reverse)
          "c" ⟨""⟩).run.run nestedProject = (outcome, nestedProject) ∧
        outcome.map Implementation.version = .ok (some "v2.0.0") := by
  have hproper : nestedProject.files.Proper := by decide +kernel
  have hcopies : IsCandidates nestedProject.files "c" ⟨""⟩ (⟨"node_modules/c"⟩ :: nestedCopies) :=
    ⟨nestedCopies, by decide, by decide +kernel, by decide +kernel⟩
  obtain ⟨directories, outcome, hcandidates, hselects, hunique, hrun⟩ :=
    resolve_selects idle nestedProject "c" ⟨""⟩ hproper
  obtain rfl := hcandidates.unique hproper hcopies
  have hbackwards := hrun (fun files path => (files.names path).reverse)
    fun path => List.reverse_perm _
  refine ⟨hproper, outcome, hselects, hbackwards, ?_⟩
  have houtcome := hunique _
    (selects_conclude (Machine.host idle) nestedProject.files "c" ⟨""⟩ _)
  exact (congrArg (Except.map Implementation.version) houtcome).symm.trans (by decide +kernel)

end Nested

end Resolving

end MiniProgram.Package
