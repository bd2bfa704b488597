import MiniProgram.Package.Resolver
import MiniProgram.Proofs.Loader.Stages

/-!
# Collaborators that change no file

The style processor and the resolver that work on the files of a host only ask questions, and a
compiler program is launched without a change to the files. So the loader that is made of them is
confined to its output (`Loader.confined_onFiles`). `Loader.installed` is such a loader on a
machine.
-/

namespace MiniProgram

variable {σ : Type} {files : σ → FileTree} {host : Host (StateM σ)}

namespace Style

/-- Looking for the directory of the stylesheets changes no file. -/
theorem moves_base (hhost : host.Atomic files) (entry : Path) :
    Moves (SameFiles files) (base host entry) := by
  rw [base]
  refine (hhost.isDirectory entry).bind fun found => ?_
  split <;> exact moves_pure _

/-- Reading a stylesheet changes no file. -/
theorem moves_readSheet (hhost : host.Atomic files) (start file : Path) :
    Moves (SameFiles files) (readSheet host start file).run := by
  rw [readSheet]
  refine (hhost.readText _).liftBind fun answer => ?_
  split <;> exact moves_pure _

/-- Processing stylesheets changes no file. -/
theorem moves_process (hhost : host.Atomic files) (sheets : List Path) (entry : Path) :
    Moves (SameFiles files) (process host sheets entry).run := by
  rw [process]
  refine (moves_base hhost entry).liftBind fun start => ?_
  exact (Moves.exceptMapM (moves_readSheet hhost start)).exceptBind fun _ _ _ _ => moves_pure _

end Style

/-- Compiling with a compiler program changes no file. -/
theorem CompilerProgram.moves_compiler (hhost : host.Atomic files) (program : CompilerProgram)
    (source : String) (options : CompilerOptions) :
    Moves (SameFiles files) (program.compiler host source options).run := by
  rw [CompilerProgram.compiler]
  refine (hhost.launch _ _ _).liftBind fun answer => ?_
  split
  · exact moves_pure _
  · cases program.result _ <;> exact moves_pure _

namespace Package

/-- Looking for the packages behind an entry changes no file. -/
theorem moves_ownersOf (hhost : host.Atomic files) (modules : Path) (name : String) :
    Moves (SameFiles files) (ownersOf host modules name) := by
  rw [ownersOf]
  split
  · exact (hhost.names _).bind fun _ => moves_pure _
  · exact moves_pure _

/-- Looking for the packages of a project changes no file. -/
theorem moves_owners (hhost : host.Atomic files) (root : Path) :
    Moves (SameFiles files) (owners host root) := by
  rw [owners]
  refine (hhost.names _).bind fun names => ?_
  exact (Moves.mapM (moves_ownersOf hhost _)).bind fun _ => moves_pure _

/-- Reading a manifest changes no file. -/
theorem moves_readManifest (hhost : host.Atomic files) (directory : Path) :
    Moves (SameFiles files) (readManifest host directory).run := by
  rw [readManifest]
  refine (hhost.isFile _).liftBind fun found => ?_
  split
  · refine (hhost.readText _).liftBind fun answer => ?_
    split
    · exact moves_pure _
    · split <;> exact moves_pure _
  · exact moves_pure _

/-- Resolving a package changes no file. -/
theorem moves_resolve (hhost : host.Atomic files) (name : String) (root : Path) :
    Moves (SameFiles files) (resolve host name root).run := by
  rw [resolve]
  refine (moves_owners hhost root).liftBind fun owners => ?_
  refine (Moves.exceptMapM (moves_readManifest hhost)).exceptBind fun _ found _ _ => ?_
  split
  · exact moves_pure _
  · cases implementation host _ <;> exact moves_pure _

/-- The compiler of an installation is a program. -/
theorem compiler_of_implementation {installation : Installation}
    {found : Implementation (StateM σ)} (h : implementation host installation = .ok found) :
    ∃ program : CompilerProgram, found.compiler = program.compiler host := by
  rw [implementation] at h
  split at h
  · cases h
  · cases h
    exact ⟨_, rfl⟩

/-- The compiler that is found among the installed packages is a program. -/
theorem compiler_of_resolve {name : String} {root : Path} {state next : σ}
    {found : Implementation (StateM σ)}
    (h : (resolve host name root).run.run state = (.ok found, next)) :
    ∃ program : CompilerProgram, found.compiler = program.compiler host := by
  rw [resolve, run_lift_bind, run_bind_eq_ok_iff] at h
  obtain ⟨manifests, middle, -, h⟩ := h
  split at h
  · cases congrArg Prod.fst h
  · cases hfound : implementation host _ with
    | error fault =>
        rw [hfound] at h
        cases congrArg Prod.fst h
    | ok chosen =>
        rw [hfound] at h
        obtain rfl : chosen = found := Except.ok.inj (congrArg Prod.fst h)
        exact compiler_of_implementation hfound

end Package

namespace Loader

/-- The loader that works on the files of a host, with a compiler among the installed packages, is
confined to its output. -/
theorem confined_onFiles (hhost : host.Atomic files) (config : LoaderConfig) :
    (onFiles host (Package.resolve host) config).Confined files where
  host := hhost
  writer := rfl
  resolver name root := (Package.moves_resolve hhost name root).moreDirectories
  compiler name root state implementation next h source options := by
    obtain ⟨program, hprogram⟩ := Package.compiler_of_resolve h
    rw [hprogram]
    exact (program.moves_compiler hhost source options).moreDirectories
  styles sheets entry := (Style.moves_process hhost sheets entry).moreDirectories

section Installed

/-- The response of a compiler program that makes the code `X` of every source. -/
def plainResponse : String := "\x7b\"code\":\"X\"\x7d"

/-- The loader on a machine where every program that is launched answers with the same response. -/
def installed (response : String) : Loader (StateM Machine) :=
  let host := Machine.host fun _ _ _ => .ok ⟨response.toUTF8, .exited 0, true⟩
  onFiles host (Package.resolve host) ⟨false, compilerPackage⟩

/-- The loader with one response for all programs is confined to its output. -/
theorem confined_installed (response : String) : (installed response).Confined Machine.files :=
  confined_onFiles (Machine.atomic_host _) _

/-- A project where a compiler program is installed, with more entries. -/
def project (more : List (Location × Entry)) : Machine where
  files := {
    entries := [
      (["node_modules"], .directory),
      (["node_modules", "jsx-compiler"], .directory),
      (["node_modules", "jsx-compiler", "package.json"],
        .file "\x7b\"name\":\"jsx-compiler\",\"bin\":\"compile\"\x7d".toUTF8 false),
      (["node_modules", "jsx-compiler", "compile"], .file ⟨#[]⟩ true)] ++ more
    current := [] }
  journal := []

/-- A development build of an app, on a platform with some extension of stylesheets. -/
def developing (cssExtension : String) : LoaderContext where
  resource := ⟨"src/app.js"⟩
  root := ⟨""⟩
  options := {
    entryPath := ⟨"src/app"⟩
    outputPath := ⟨"dist"⟩
    platform := ⟨"Test Platform", none, cssExtension⟩
    mode := .watch
    disableCopyNpm := false
    turnOffSourceMap := false }

end Installed

end Loader

end MiniProgram
