import MiniProgram.Proofs.Loader.Interference
import MiniProgram.Proofs.Loader.Stylesheet

/-!
# Independent runs

Read `runs_commute` first: two runs with output directories of their own, none of which reads what
the other one writes, can be made in either order. Each has the same result both times, and all
files are the same in the end. There is one thing that the order can change: the reason that is
given why a stylesheet with too long a name cannot be read. Where its directory is missing the
stylesheet is not found, and where the other run has made that directory the name is found to be too
long.
-/

namespace MiniProgram

open FileTree

variable {σ : Type} {files : σ → FileTree}

/-- A run to be made: by which loader, about what, and on which source. -/
structure Request (σ : Type) where
  loader : Loader (StateM σ)
  context : LoaderContext
  raw : String

namespace Request

variable {request other first second : Request σ} {state : σ}

/-- Makes the run. -/
def run (request : Request σ) : StateM σ (Except LoaderFault String) :=
  (request.loader.run request.context request.raw).run

/-- The place of the output directory. -/
def folder (request : Request σ) (tree : FileTree) : Location :=
  tree.placeOf request.context.options.outputPath

/-- `request.IsInput files state path` says that a path is the source path of a run, or the path of
a stylesheet that it comes to read. -/
def IsInput (request : Request σ) (files : σ → FileTree) (state : σ) (path : Path) : Prop :=
  path = request.context.entry ∨
    ∃ compilation compiled,
      (request.loader.translate request.context request.raw).run.run state =
        (.ok compilation, compiled) ∧
      ∃ file ∈ compilation.styleFiles,
        path = (Style.baseIn (files compiled) request.context.entry).join file

/-- A run on files whose paths have no double dots, with a resolver and compilers that do not work
on files. -/
structure Regular (request : Request σ) (files : σ → FileTree) (state : σ) : Prop where
  standard : request.loader.Standard files
  extension : '/' ∉ request.context.options.platform.cssExtension.toList
  output : request.context.options.outputPath.Plain
  input : ∀ path, request.IsInput files state path → path.Plain

/-- A run that reads nothing in the output directory of another one, nor what it is in. -/
def Clear (request other : Request σ) (files : σ → FileTree) (state : σ) : Prop :=
  ∀ path, request.IsInput files state path →
    Apart (other.folder (files state)) ((files state).placeOf path)

/-- A run does to the files what its compiler's answer makes it do. -/
theorem Regular.exists_runIn (h : request.Regular files state) :
    ∃ answer, Asks files (request.loader.interpret request.context request.raw).run
        (fun _ => answer) ∧
      Acts files request.run (Loader.runIn request.context request.raw answer) := by
  obtain ⟨answer, hanswer⟩ := h.standard.asks_interpret request.context request.raw
  exact ⟨answer, hanswer, Loader.acts_run h.standard hanswer⟩

/-- A run keeps the files rooted. -/
theorem Regular.rooted_run (h : request.Regular files state) {start : σ}
    (hrooted : (files start).Rooted) : (files (request.run.run start).2).Rooted := by
  obtain ⟨answer, -, hacts⟩ := h.exists_runIn
  have htree := congrArg Prod.snd (hacts start)
  rw [← show _ = files (request.run.run start).2 from htree]
  exact Loader.rooted_runIn hrooted _ _ _

/-- A run changes its output directory and what is on the way there. -/
theorem Regular.beside_run (h : request.Regular files state) {start : σ}
    (hrooted : (files start).Rooted) :
    Beside (fun _ => True) (request.folder (files start)) (files start)
      (files (request.run.run start).2) := by
  obtain ⟨answer, -, hacts⟩ := h.exists_runIn
  have htree := congrArg Prod.snd (hacts start)
  rw [← show _ = files (request.run.run start).2 from htree]
  exact Loader.beside_runIn _ _ hrooted h.output h.extension

/-- A run does the same where another one has worked before, as long as it is clear of that one. -/
theorem Regular.run_beside (h : request.Regular files state)
    (hclear : request.Clear other files state)
    (hfolders : Apart (other.folder (files state)) (request.folder (files state)))
    (hrooted : (files state).Rooted) {start : σ} (hstart : (files start).Rooted)
    {made : Location → Prop}
    (hbeside : Beside made (other.folder (files state)) (files state) (files start)) :
    Loader.Alike (request.run.run state).1 (request.run.run start).1 ∧
      Beside made (other.folder (files state)) (files (request.run.run state).2)
        (files (request.run.run start).2) := by
  obtain ⟨answer, hanswer, hacts⟩ := h.exists_runIn
  have hsheets : ∀ left compilation,
      (files state).createDirectories request.context.options.outputPath = (.ok (), left) →
      answer = .ok compilation → ∀ file ∈ compilation.styleFiles,
        request.IsInput files state
          ((Style.baseIn left request.context.entry).join file) := by
    rintro left compilation hleft rfl file hfile
    obtain ⟨compiled, hcompiled, rfl⟩ := Loader.exists_of_translate h.standard hanswer hleft
    exact .inr ⟨compilation, compiled, hcompiled, file, hfile, rfl⟩
  have hboth := Loader.runIn_beside request.raw hrooted hstart hbeside h.extension h.output hfolders
    ⟨h.input _ (.inl rfl), hclear _ (.inl rfl)⟩
    fun left compilation hleft (hcompilation : answer = .ok compilation) file hfile =>
      ⟨h.input _ (hsheets left compilation hleft hcompilation file hfile),
        hclear _ (hsheets left compilation hleft hcompilation file hfile)⟩
  rwa [hacts state, hacts start] at hboth

/-- Two runs with output directories of their own, each of which is clear of the other one, can be
made in either order. The results are the same, but for the reason why a stylesheet with too long a
name cannot be read, and so are all files. -/
theorem runs_commute (hfirst : first.Regular files state) (hsecond : second.Regular files state)
    (hrooted : (files state).Rooted)
    (hfolders : Apart (first.folder (files state)) (second.folder (files state)))
    (hclear : first.Clear second files state) (hclear' : second.Clear first files state) :
    Loader.Alike (first.run.run state).1 (first.run.run (second.run.run state).2).1 ∧
      Loader.Alike (second.run.run state).1 (second.run.run (first.run.run state).2).1 ∧
      (files (second.run.run (first.run.run state).2).2).Same
        (files (first.run.run (second.run.run state).2).2) := by
  have hrooted₁ := hfirst.rooted_run hrooted
  have hrooted₂ := hsecond.rooted_run hrooted
  have hleft := hfirst.beside_run hrooted
  have hright := hsecond.beside_run hrooted
  obtain ⟨halike, hkept⟩ :=
    hfirst.run_beside hclear hfolders.symm hrooted hrooted₂ hright.marked
  obtain ⟨halike', hkept'⟩ :=
    hsecond.run_beside hclear' hfolders hrooted hrooted₁ hleft.marked
  have hlast := hfirst.beside_run hrooted₂
  have hlast' := hsecond.beside_run hrooted₁
  rw [folder, hright.placeOf_eq] at hlast
  rw [folder, hleft.placeOf_eq] at hlast'
  exact ⟨halike, halike', same_of_beside hfolders hkept hkept' hlast hlast'⟩

section Copying

variable {sheets : List Path} {context : LoaderContext} {raw : String} {start : Machine}
  {path : Path}

/-- What is read by a run whose compiler refers to some stylesheets. -/
theorem exists_of_isInput
    (h : (⟨Loader.copying sheets, context, raw⟩ : Request Machine).IsInput Machine.files start
      path) :
    path = context.entry ∨ ∃ file ∈ sheets,
      path = context.entry.join file ∨ path = (context.entry.parent?.getD ⟨""⟩).join file := by
  refine h.imp_right fun ⟨compilation, compiled, hcompiled, file, hfile, hpath⟩ => ?_
  rw [Loader.styleFiles_of_translate hcompiled] at hfile
  refine ⟨file, hfile, ?_⟩
  rw [hpath, Style.baseIn]
  split
  · exact .inl rfl
  · exact .inr rfl

/-- Runs of this kind are regular and clear of each other if the paths that they may read are plain
and apart from the output directory of the other one. -/
theorem regular_copying (hext : '/' ∉ context.options.platform.cssExtension.toList)
    (houtput : context.options.outputPath.Plain) (hentry : context.entry.Plain)
    (hsheets : ∀ file ∈ sheets, (context.entry.join file).Plain ∧
      ((context.entry.parent?.getD ⟨""⟩).join file).Plain) :
    (⟨Loader.copying sheets, context, raw⟩ : Request Machine).Regular Machine.files start where
  standard := Loader.standard_copying sheets
  extension := hext
  output := houtput
  input path hpath := by
    rcases exists_of_isInput hpath with rfl | ⟨file, hfile, rfl | rfl⟩
    · exact hentry
    · exact (hsheets file hfile).1
    · exact (hsheets file hfile).2

/-- A run of this kind is clear of another one if all paths that it may read are. -/
theorem clear_copying {other : Request Machine}
    (hentry : Apart (other.folder start.files) (start.files.placeOf context.entry))
    (hsheets : ∀ file ∈ sheets,
      Apart (other.folder start.files) (start.files.placeOf (context.entry.join file)) ∧
        Apart (other.folder start.files)
          (start.files.placeOf ((context.entry.parent?.getD ⟨""⟩).join file))) :
    (⟨Loader.copying sheets, context, raw⟩ : Request Machine).Clear other Machine.files start := by
  intro path hpath
  rcases exists_of_isInput hpath with rfl | ⟨file, hfile, rfl | rfl⟩
  · exact hentry
  · exact (hsheets file hfile).1
  · exact (hsheets file hfile).2

/-- A development build of the app in a directory, with its output in another one. -/
def building (source output : String) : LoaderContext where
  resource := ⟨source ++ "/app.js"⟩
  root := ⟨""⟩
  options := { (Loader.developing ".css").options with
    entryPath := ⟨source ++ "/app"⟩
    outputPath := ⟨output⟩ }

/-- A request for such a build by a compiler that refers to a stylesheet. -/
def styling (source output sheet : String) : Request Machine where
  loader := Loader.copying [⟨sheet⟩]
  context := building source output
  raw := ""

section Styling

variable {source output sheet : String} (hsheet : Path.isFileName sheet = true)

include hsheet

/-- A build is regular if the paths of its app and of the directories that its stylesheet is looked
up in are plain. -/
theorem regular_styling (houtput : (⟨output⟩ : Path).Plain)
    (hentry : (building source output).entry.Plain)
    (hparent : ((building source output).entry.parent?.getD ⟨""⟩).Plain) :
    (styling source output sheet).Regular Machine.files start := by
  refine regular_copying (show '/' ∉ ".css".toList by decide) houtput hentry fun file hfile => ?_
  obtain rfl := List.mem_singleton.1 hfile
  exact ⟨hentry.div hsheet, hparent.div hsheet⟩

/-- A build is clear of another one if the paths of its app and of its stylesheet are. -/
theorem clear_styling {other : Request Machine}
    (hentry : Apart (other.folder start.files)
      (start.files.placeOf (building source output).entry))
    (hparent : Apart (other.folder start.files)
      (start.files.placeOf ((building source output).entry.parent?.getD ⟨""⟩) ++ [sheet])) :
    (styling source output sheet).Clear other Machine.files start := by
  refine clear_copying hentry fun file hfile => ?_
  obtain rfl := List.mem_singleton.1 hfile
  have hplace : start.files.placeOf ((building source output).entry.join ⟨sheet⟩) = _ :=
    placeOf_div start.files (building source output).entry hsheet
  have hplace' : start.files.placeOf
      (((building source output).entry.parent?.getD ⟨""⟩).join ⟨sheet⟩) = _ :=
    placeOf_div start.files ((building source output).entry.parent?.getD ⟨""⟩) hsheet
  rw [hplace, hplace']
  exact ⟨hentry.append [sheet], hparent⟩

end Styling

/-- Two builds of an app whose output directories are beside each other can be made in either
order. -/
theorem runs_commute_beside :
    ((styling "src" "dist/a" "a.css").run.run
        ((styling "src" "dist/b" "b.css").run.run Loader.styledProject).2).1 =
        .ok (Dependency.moduleText ⟨"src/app.js"⟩ []) ∧
      ((styling "src" "dist/b" "b.css").run.run
        ((styling "src" "dist/a" "a.css").run.run Loader.styledProject).2).1 =
        .ok (Dependency.moduleText ⟨"src/app.js"⟩ []) ∧
      ((styling "src" "dist/b" "b.css").run.run
        ((styling "src" "dist/a" "a.css").run.run Loader.styledProject).2).2.files.Same
        ((styling "src" "dist/a" "a.css").run.run
        ((styling "src" "dist/b" "b.css").run.run Loader.styledProject).2).2.files := by
  have hrooted : Loader.styledProject.files.Rooted := by
    decide +kernel
  have hfirst : (styling "src" "dist/a" "a.css").Regular Machine.files Loader.styledProject :=
    regular_copying (by decide) (by decide) (by decide +kernel) (by decide +kernel)
  have hsecond : (styling "src" "dist/b" "b.css").Regular Machine.files Loader.styledProject :=
    regular_copying (by decide) (by decide) (by decide +kernel) (by decide +kernel)
  have hclear : (styling "src" "dist/a" "a.css").Clear (styling "src" "dist/b" "b.css")
      Machine.files Loader.styledProject :=
    clear_copying (by decide +kernel) (by decide +kernel)
  have hclear' : (styling "src" "dist/b" "b.css").Clear (styling "src" "dist/a" "a.css")
      Machine.files Loader.styledProject :=
    clear_copying (by decide +kernel) (by decide +kernel)
  have hresult : ((styling "src" "dist/a" "a.css").run.run Loader.styledProject).1 =
      .ok (Dependency.moduleText ⟨"src/app.js"⟩ []) := by
    decide +kernel
  have hresult' : ((styling "src" "dist/b" "b.css").run.run Loader.styledProject).1 =
      .ok (Dependency.moduleText ⟨"src/app.js"⟩ []) := by
    decide +kernel
  obtain ⟨halike, halike', hsame⟩ :=
    runs_commute hfirst hsecond hrooted (by decide +kernel) hclear hclear'
  rw [hresult] at halike
  rw [hresult'] at halike'
  exact ⟨halike.eq_of_ok, halike'.eq_of_ok, hsame⟩

/-- Such a build fails if its stylesheet cannot be read, and leaves its output directory. -/
theorem run_of_unreadable {source output sheet : String} {left : FileTree} {fault : FileFault}
    (hmade : start.files.createDirectories ⟨output⟩ = (.ok (), left))
    (hbase : Style.baseIn left ⟨source ++ "/app"⟩ = ⟨source⟩)
    (hread : left.readText ((⟨source⟩ : Path) / sheet) = .error fault) :
    ((styling source output sheet).run.run start).1 =
        .error (.style ⟨(⟨source⟩ : Path) / sheet, fault.message⟩) ∧
      ((styling source output sheet).run.run start).2.files = left := by
  have hstyle : Style.processed left [⟨sheet⟩] ⟨source ++ "/app"⟩ =
      .error ⟨(⟨source⟩ : Path) / sheet, fault.message⟩ := by
    unfold Style.processed
    rw [hbase, List.mapM_cons, Style.sheetIn,
      show (⟨source⟩ : Path).join ⟨sheet⟩ = (⟨source⟩ : Path) / sheet from rfl, hread]
    rfl
  have hacts := Loader.acts_run (Loader.standard_copying [⟨sheet⟩])
    (Loader.asks_copying [⟨sheet⟩] (building source output) "") start
  have hentry : (building source output).entry = ⟨source ++ "/app"⟩ := Path.join_of_empty rfl
  rw [Loader.runIn, Loader.folderIn_eq_ok_iff.2 hmade] at hacts
  simp only [hentry, hstyle] at hacts
  exact ⟨(congrArg Prod.fst hacts).symm, (congrArg Prod.snd hacts).symm⟩

/-- A stylesheet whose name is longer than a name in a directory can be. -/
def longSheet : String := String.ofList (List.replicate 300 'a')

/-- The name is the letter `a` three hundred times. -/
theorem toList_longSheet : longSheet.toList = List.replicate 300 'a' :=
  String.toList_ofList

/-- No other letter stands in the name. -/
theorem not_mem_longSheet {c : Char} (hc : c ≠ 'a') : c ∉ longSheet.toList := by
  rw [toList_longSheet]
  exact fun hmem => hc (List.eq_of_mem_replicate hmem)

/-- The name differs from every shorter text. -/
theorem longSheet_ne {text : String} (h : text.toList.length < 300) : longSheet ≠ text := by
  rintro rfl
  rw [toList_longSheet, List.length_replicate] at h
  omega

/-- But for its length, the name is one that a file can have. -/
theorem isFileName_longSheet : Path.isFileName longSheet = true := by
  simp [Path.isFileName, not_mem_longSheet (show '/' ≠ 'a' by decide),
    longSheet_ne (show "".toList.length < 300 by decide),
    longSheet_ne (show ".".toList.length < 300 by decide),
    longSheet_ne (show "..".toList.length < 300 by decide)]

/-- The name takes three hundred bytes. -/
theorem utf8ByteSize_longSheet : longSheet.utf8ByteSize = 300 := by
  decide +kernel

/-- A file with that name is not found where its directory is missing, and its name is too long
where the directory is there. -/
theorem readText_longSheet {tree : FileTree} (hcurrent : tree.current = []) :
    (tree.get? ["x"] = none → tree.readText ((⟨"x"⟩ : Path) / longSheet) = .error .notFound) ∧
      (tree.get? ["x"] = some .directory →
        tree.readText ((⟨"x"⟩ : Path) / longSheet) = .error .nameTooLong) := by
  have htext : ((⟨"x"⟩ : Path) / longSheet).text = "x" ++ "/" ++ longSheet := by
    show (Path.join ⟨"x"⟩ ⟨longSheet⟩).text = _
    rw [Path.join, Path.isAbsolute_of_isFileName isFileName_longSheet]
    rfl
  have hvalid : pathFault? ((⟨"x"⟩ : Path) / longSheet) = none := by
    have hsize : "x/".utf8ByteSize = 2 := by decide
    rw [pathFault?, htext]
    simp [not_mem_longSheet (show '\x00' ≠ 'a' by decide), utf8ByteSize_longSheet, pathLimit, hsize]
  have hstart : tree.start ⟨"x"⟩ = [] := by
    rw [start, hcurrent, ite_self]
  have hlong : nameLimit < longSheet.utf8ByteSize := by
    rw [utf8ByteSize_longSheet]
    decide
  have hstem : (⟨"x"⟩ : Path).stem = [['x']] := by decide
  have hcurrent' : tree.get? (tree.start ⟨"x"⟩) = some .directory := by
    rw [hstart]
    rfl
  have hread := readText_of_long hstem (by decide) (by decide) (by decide) isFileName_longSheet
    hlong hvalid hcurrent'
  rwa [hstart] at hread

/-- Where the directory of such a stylesheet is missing it is not found, and after a run that makes
this directory its name is too long. -/
theorem runs_commute_not :
    ¬ ∀ first second : Request Machine, first.Regular Machine.files (Loader.project []) →
      second.Regular Machine.files (Loader.project []) →
      (Loader.project []).files.Rooted →
      Apart (first.folder (Loader.project []).files) (second.folder (Loader.project []).files) →
      first.Clear second Machine.files (Loader.project []) →
      second.Clear first Machine.files (Loader.project []) →
      (first.run.run (second.run.run (Loader.project [])).2).1 =
        (first.run.run (Loader.project [])).1 := by
  intro h
  have hregular : ∀ output, (⟨output⟩ : Path).Plain →
      (styling "x" output longSheet).Regular Machine.files (Loader.project []) :=
    fun output houtput => regular_styling isFileName_longSheet houtput
      (show (building "x" "y/a").entry.Plain by decide +kernel)
      (show ((building "x" "y/a").entry.parent?.getD ⟨""⟩).Plain by decide +kernel)
  have hfolder : (styling "x" "y/a" longSheet).folder (Loader.project []).files = ["y", "a"] := by
    decide +kernel
  have hfolder' : (styling "x" "x/b" longSheet).folder (Loader.project []).files = ["x", "b"] := by
    decide +kernel
  have hparent : ∀ output, (Loader.project []).files.placeOf
      ((building "x" output).entry.parent?.getD ⟨""⟩) = ["x"] := by
    intro output
    show (Loader.project []).files.placeOf ((building "x" "y/a").entry.parent?.getD ⟨""⟩) = ["x"]
    decide +kernel
  have hclear : (styling "x" "y/a" longSheet).Clear (styling "x" "x/b" longSheet) Machine.files
      (Loader.project []) := by
    refine clear_styling isFileName_longSheet (by decide +kernel) ?_
    rw [hfolder', hparent]
    simp [Apart, (longSheet_ne (show "b".toList.length < 300 by decide)),
      (longSheet_ne (show "b".toList.length < 300 by decide)).symm]
  have hclear' : (styling "x" "x/b" longSheet).Clear (styling "x" "y/a" longSheet) Machine.files
      (Loader.project []) := by
    refine clear_styling isFileName_longSheet (by decide +kernel) ?_
    rw [hfolder, hparent]
    simp [Apart]
  have hsame := h _ _ (hregular "y/a" (by decide)) (hregular "x/b" (by decide))
    (by decide +kernel) (by decide +kernel) hclear hclear'
  have hmissing : ((styling "x" "y/a" longSheet).run.run (Loader.project [])).1 = .error (.style
      ⟨(⟨"x"⟩ : Path) / longSheet, FileFault.notFound.message⟩) :=
    (run_of_unreadable (Prod.ext (by decide +kernel) rfl) (by decide +kernel)
      ((readText_longSheet (by decide +kernel)).1 (by decide +kernel))).1
  have hmade : ((styling "x" "x/b" longSheet).run.run (Loader.project [])).2.files =
      ((Loader.project []).files.createDirectories ⟨"x/b"⟩).2 :=
    (run_of_unreadable (Prod.ext (by decide +kernel) rfl) (by decide +kernel)
      ((readText_longSheet (by decide +kernel)).2 (by decide +kernel))).2
  have hmade' :
      ((styling "x" "x/b" longSheet).run.run (Loader.project [])).2.files.createDirectories
      ⟨"y/a"⟩ = (.ok (), (((Loader.project []).files.createDirectories
        ⟨"x/b"⟩).2.createDirectories ⟨"y/a"⟩).2) := by
    rw [hmade]
    exact Prod.ext (by decide +kernel) rfl
  have hlong : ((styling "x" "y/a" longSheet).run.run
      ((styling "x" "x/b" longSheet).run.run (Loader.project [])).2).1 = .error (.style
        ⟨(⟨"x"⟩ : Path) / longSheet, FileFault.nameTooLong.message⟩) :=
    (run_of_unreadable hmade' (by decide +kernel)
      ((readText_longSheet (by decide +kernel)).2 (by decide +kernel))).1
  rw [hlong, hmissing] at hsame
  simp only [Except.error.injEq, LoaderFault.style.injEq, StyleFault.mk.injEq] at hsame
  exact absurd hsame.2 (by decide +kernel)

end Copying

end Request

end MiniProgram
