import MiniProgram.Proofs.Files.Stability
import MiniProgram.Proofs.Loader.Artifacts
import MiniProgram.Proofs.Loader.Effect
import MiniProgram.Proofs.Loader.Stylesheet

/-!
# Repeated runs

Read `run_repeats` first: a run that succeeded can be repeated, and then it has the same result and
leaves all files as they are. The directories are there, the stylesheets lie elsewhere and say the
same, and the files that are written hold what they held.
-/

namespace MiniProgram

open FileTree

variable {σ : Type} {files : σ → FileTree}

namespace Output

variable {tree next : FileTree} {base path : Path} {word text : String}

/-- A file is written where its path leads, in a directory that is there, and it stays
executable if it was. -/
theorem fileIn_eq_ok_iff (hword : Path.isFileName word = true) (hbase : tree.Has base) :
    fileIn (base / word) text tree = (.ok (), next) ↔
      ∃ location, tree.target (base / word) = .ok (.named location false) ∧
        tree.get? location ≠ some .directory ∧
        next = tree.put location (.file text.toUTF8 (tree.isExecutableAt location)) := by
  have hparent : pathFault? (base / word) = none →
      parentIn (base / word) tree = (.ok (), tree) := by
    intro hvalid
    unfold parentIn
    split
    · next parent hsome => exact createDirectories_of_has (hbase.of_parent? hword hvalid hsome)
    · rfl
  have hvalid : ∀ tree : FileTree, (∃ location,
      tree.target (base / word) = .ok (.named location false)) →
    pathFault? (base / word) = none := by
    rintro tree ⟨location, htarget⟩
    obtain ⟨_, _, hholds, -⟩ := target_eq_named_iff.1 htarget
    exact hholds.valid
  rw [← write_eq_ok_iff]
  unfold fileIn
  constructor
  · intro h
    split at h
    · cases (Prod.mk.inj h).1
    · next made hmade =>
        split at h
        · cases (Prod.mk.inj h).1
        · next written hwrite =>
            obtain ⟨-, rfl⟩ := Prod.mk.inj h
            obtain ⟨location, htarget, -⟩ := write_eq_ok_iff.1 hwrite
            rw [hparent (hvalid made ⟨location, htarget⟩)] at hmade
            obtain ⟨-, rfl⟩ := Prod.mk.inj hmade
            exact hwrite
  · intro hwrite
    obtain ⟨location, htarget, -⟩ := write_eq_ok_iff.1 hwrite
    rw [hparent (hvalid tree ⟨location, htarget⟩)]
    simp only [hwrite]

/-- A file that is written changes a file tree at its place, where no directory was. -/
theorem exists_of_fileIn_ok (hword : Path.isFileName word = true) (hbase : tree.Has base)
    (h : fileIn (base / word) text tree = (.ok (), next)) :
    ∃ location, tree.target (base / word) = .ok (.named location false) ∧
      Grows [location] tree next ∧ Grows [location] next tree := by
  obtain ⟨location, htarget, hplain, rfl⟩ := (fileIn_eq_ok_iff hword hbase).1 h
  exact ⟨location, htarget, grows_put_file _ _ (ne_nil_of_target htarget) hplain⟩

/-- Nothing changes when a file is written that holds its text already. -/
theorem fileIn_of_settled {location : Location} {executable : Bool}
    (hword : Path.isFileName word = true) (hbase : tree.Has base)
    (htarget : tree.target (base / word) = .ok (.named location false))
    (h : tree.Settled location (.file text.toUTF8 executable)) :
    fileIn (base / word) text tree = (.ok (), tree) := by
  have hfile := h.get?_eq (ne_nil_of_target htarget)
  refine (fileIn_eq_ok_iff hword hbase).2 ⟨location, htarget, by simp [hfile], ?_⟩
  have hexecutable : tree.isExecutableAt location = executable := by
    simp [isExecutableAt, hfile]
  rw [hexecutable, h.put_eq]

/-- Two files that were written can be written again, and then all is as it was. If both have the
same place, the first one takes it for a while. -/
theorem fileIn_again {middle : FileTree} {first second code style : String}
    (hfirst : Path.isFileName first = true) (hsecond : Path.isFileName second = true)
    (hbase : tree.Has base) (hcode : fileIn (base / first) code tree = (.ok (), middle))
    (hstyle : fileIn (base / second) style middle = (.ok (), next)) :
    ∃ again, fileIn (base / first) code next = (.ok (), again) ∧
      fileIn (base / second) style again = (.ok (), next) := by
  obtain ⟨place, hplace, hplain, rfl⟩ := (fileIn_eq_ok_iff hfirst hbase).1 hcode
  obtain ⟨hgrows, -⟩ := grows_put_file code.toUTF8 (tree.isExecutableAt place)
    (ne_nil_of_target hplace) hplain
  obtain ⟨location, hlocation, hplain', rfl⟩ :=
    (fileIn_eq_ok_iff hsecond (hgrows.has hbase)).1 hstyle
  have hne := ne_nil_of_target hlocation
  obtain ⟨hgrows', -⟩ := grows_put_file style.toUTF8 ((tree.put place
    (.file code.toUTF8 (tree.isExecutableAt place))).isExecutableAt location) hne hplain'
  have hcodeKept := settled_put tree place (.file code.toUTF8 (tree.isExecutableAt place))
  generalize tree.put place (.file code.toUTF8 (tree.isExecutableAt place)) = middle at *
  have hstyleKept :=
    settled_put middle location (.file style.toUTF8 (middle.isExecutableAt location))
  have hcodeKept' := fun hapart : location ≠ place => hcodeKept.put hapart
    (.file style.toUTF8 (middle.isExecutableAt location))
  generalize middle.put location (.file style.toUTF8 (middle.isExecutableAt location)) = last at *
  have hhas := hgrows'.has (hgrows.has hbase)
  have htarget := hgrows'.target (hgrows.target hplace)
  have htarget' := hgrows'.target hlocation
  rcases eq_or_ne location place with rfl | hapart
  · have hfile := hstyleKept.get?_eq hne
    have hexecutable : last.isExecutableAt location = middle.isExecutableAt location := by
      simp [isExecutableAt, hfile]
    have hplain'' : last.get? location ≠ some .directory := by simp [hfile]
    refine ⟨_, (fileIn_eq_ok_iff hfirst hhas).2 ⟨location, htarget, hplain'', rfl⟩, ?_⟩
    obtain ⟨hgrows'', -⟩ :=
      grows_put_file code.toUTF8 (last.isExecutableAt location) hne hplain''
    refine (fileIn_eq_ok_iff hsecond (hgrows''.has hhas)).2
      ⟨location, hgrows''.target htarget', by simp [get?_put last hne], ?_⟩
    rw [isExecutableAt_put hne, if_pos rfl, put_put, hexecutable, hstyleKept.put_eq]
  · exact ⟨last, fileIn_of_settled hfirst hhas htarget (hcodeKept' hapart),
      fileIn_of_settled hsecond hhas htarget' hstyleKept⟩

/-- Leaving the output changes what stands at places for files in its directory, and it can be left
again. -/
theorem outputIn_again {options : OutputOptions} {first second code style : String}
    (hfirst : Path.isFileName first = true) (hsecond : Path.isFileName second = true)
    (hcodePath : options.codePath = base / first) (hstylePath : options.stylePath = base / second)
    (hbase : tree.Has base) (h : outputIn options code style tree = (.ok (), next)) :
    outputIn options code style next = (.ok (), next) ∧
      ∃ folder, tree.follow (tree.start base) base.stem = .ok folder ∧
        Grows [folder ++ [first], folder ++ [second]] tree next ∧
        Grows [folder ++ [first], folder ++ [second]] next tree := by
  unfold outputIn at h ⊢
  rw [hcodePath, hstylePath] at *
  split at h
  · cases (Prod.mk.inj h).1
  · next left hleft =>
      obtain ⟨again, hcode, hstyle⟩ := fileIn_again hfirst hsecond hbase hleft h
      refine ⟨by rw [hcode]; exact hstyle, ?_⟩
      obtain ⟨place, hplace, hgrows, hback⟩ := exists_of_fileIn_ok hfirst hbase hleft
      obtain ⟨location, hlocation, hgrows', hback'⟩ :=
        exists_of_fileIn_ok hsecond (hgrows.has hbase) h
      obtain ⟨folder, hfolder, rfl⟩ := exists_of_target_div hfirst hplace
      obtain ⟨folder', hfolder', rfl⟩ := exists_of_target_div hsecond (hback.target hlocation)
      obtain rfl : folder = folder' := Except.ok.inj (hfolder.symm.trans hfolder')
      have hfirst : ∀ l ∈ [folder ++ [first]], l ∈ [folder ++ [first], folder ++ [second]] := by
        simp
      have hsecond : ∀ l ∈ [folder ++ [second]], l ∈ [folder ++ [first], folder ++ [second]] := by
        simp
      exact ⟨folder, hfolder, (hgrows.mono hfirst).trans (hgrows'.mono hsecond),
        (hback'.mono hsecond).trans (hback.mono hfirst)⟩

end Output

namespace Style

variable {tree next : FileTree} {changed : List Location} {sheets : List Path} {entry : Path}
  {style : StyleOutput}

/-- Stylesheets make up the same as before if only other files have changed. -/
theorem processed_of_grows (h : Grows changed tree next) (hback : Grows changed next tree)
    (houtside : ∀ file ∈ sheets, ∀ place ∈ changed,
      tree.locate ((baseIn tree entry).join file) ≠ .ok place)
    (hprocessed : processed tree sheets entry = .ok style) :
    processed next sheets entry = .ok style := by
  have hbase : baseIn next entry = baseIn tree entry := by
    have hdirectory : next.isDirectory entry = tree.isDirectory entry :=
      Bool.eq_iff_iff.2 ⟨hback.isDirectory, h.isDirectory⟩
    rw [baseIn, baseIn, hdirectory]
  have hsheets : ∀ file ∈ sheets,
      sheetIn next (baseIn tree entry) file = sheetIn tree (baseIn tree entry) file := by
    intro file hfile
    obtain ⟨found, hfound, -⟩ := except_bind_eq_ok_iff.1 hprocessed
    obtain ⟨sheet, hsheet⟩ := exists_of_mem_mapM hfound hfile
    obtain ⟨-, hread⟩ := sheetIn_eq_ok_iff.1 hsheet
    rw [sheetIn, sheetIn, hread, h.readText_of_not_mem (houtside file hfile) hread]
  rw [← hprocessed, processed, processed, hbase, mapM_congr_left hsheets]

end Style

namespace Loader

variable {context : LoaderContext} {raw text : String} {tree next : FileTree}
  {answer : Except LoaderFault Compilation}

/-- What a run that succeeds does: it makes its directory, processes the stylesheets of what was
compiled, and leaves the output. -/
theorem runIn_eq_ok_iff :
    runIn context raw answer tree = (.ok text, next) ↔
      ∃ made compilation style,
        tree.createDirectories context.options.outputPath = (.ok (), made) ∧
        answer = .ok compilation ∧
        Style.processed made compilation.styleFiles context.entry = .ok style ∧
        Output.outputIn (outputOptions context)
          (Output.codeText (artifacts compilation style) raw (outputOptions context))
          (Output.styleText (artifacts compilation style) (outputOptions context)) made =
            (.ok (), next) ∧
        text = Dependency.moduleText context.resource compilation.dependencies := by
  unfold runIn
  constructor
  · intro h
    split at h
    · cases (Prod.mk.inj h).1
    next made hmade =>
    split at h
    · cases (Prod.mk.inj h).1
    next compilation =>
    split at h
    · cases (Prod.mk.inj h).1
    next style hstyle =>
    unfold finishIn at h
    split at h
    · cases (Prod.mk.inj h).1
    next left hleft =>
    obtain ⟨htext, rfl⟩ := Prod.mk.inj h
    exact ⟨made, compilation, style, folderIn_eq_ok_iff.1 hmade, rfl, hstyle, hleft,
      (Except.ok.inj htext).symm⟩
  · rintro ⟨made, compilation, style, hmade, rfl, hstyle, houtput, rfl⟩
    simp only [folderIn_eq_ok_iff.2 hmade, hstyle, finishIn, houtput]

/-- A run that succeeded on a file tree can be repeated on what it has left. -/
theorem runIn_again (hext : '/' ∉ context.options.platform.cssExtension.toList)
    (houtside : ∀ made compilation,
      tree.createDirectories context.options.outputPath = (.ok (), made) →
      answer = .ok compilation → ∀ file ∈ compilation.styleFiles,
        ¬ made.Within context.options.outputPath ((Style.baseIn made context.entry).join file))
    (h : runIn context raw answer tree = (.ok text, next)) :
    runIn context raw answer next = (.ok text, next) := by
  obtain ⟨made, compilation, style, hmade, rfl, hstyle, houtput, rfl⟩ := runIn_eq_ok_iff.1 h
  have hhas := has_of_createDirectories hmade
  obtain ⟨hagain, folder, hfolder, hgrows, hback⟩ := Output.outputIn_again
    (by decide : Path.isFileName (appStem ++ ".js") = true) (isFileName_stylesheetName _ hext)
    rfl rfl hhas houtput
  refine runIn_eq_ok_iff.2 ⟨next, compilation, style,
    createDirectories_of_has (hgrows.has hhas), rfl, ?_, hagain, rfl⟩
  refine Style.processed_of_grows hgrows hback (fun file hfile place hplace hlocate => ?_) hstyle
  refine houtside made compilation hmade rfl file hfile ⟨folder, place, hfolder, hlocate, ?_⟩
  rcases List.mem_pair.1 hplace with rfl | rfl <;> exact List.prefix_append _ _

/-- A run that succeeded can be repeated on what it has left. It answers with the same module, and
all files stay as they are. The stylesheets of the app have to lie outside of the output directory,
as a run may write over them otherwise. -/
theorem run_repeats {loader : Loader (StateM σ)} (hloader : loader.Standard files) {state last : σ}
    (hext : '/' ∉ context.options.platform.cssExtension.toList)
    (houtside : ∀ compilation compiled,
      (loader.translate context raw).run.run state = (.ok compilation, compiled) →
      ∀ file ∈ compilation.styleFiles, ¬ (files compiled).Within context.options.outputPath
        ((Style.baseIn (files compiled) context.entry).join file))
    (h : (loader.run context raw).run.run state = (.ok text, last)) :
    ∃ again, (loader.run context raw).run.run last = (.ok text, again) ∧
      files again = files last := by
  obtain ⟨answer, hanswer⟩ := hloader.asks_interpret context raw
  have hacts := acts_run hloader hanswer
  refine hacts.exists_run (runIn_again hext ?_ (hacts.of_run h))
  rintro made compilation hmade rfl file hfile
  obtain ⟨compiled, hcompiled, rfl⟩ := exists_of_translate hloader hanswer hmade
  exact houtside compilation compiled hcompiled file hfile

/-- A run whose stylesheet lies beside the source leaves the same files when it is repeated. -/
theorem run_repeats_beside :
    ∃ text last again,
      ((copying [⟨"a.css"⟩]).run releasing "b();").run.run styledProject = (.ok text, last) ∧
      ((copying [⟨"a.css"⟩]).run releasing "b();").run.run last = (.ok text, again) ∧
      again.files = last.files ∧
      last.files.readText ⟨"dist/app.js"⟩ = .ok "b();" := by
  rcases hrun : ((copying [⟨"a.css"⟩]).run releasing "b();").run.run styledProject
    with ⟨result, last⟩
  have hends : (result, last.files.readText ⟨"dist/app.js"⟩) =
      (.ok (Dependency.moduleText ⟨"src/app.js"⟩ []), .ok "b();") :=
    (congrArg (fun outcome => (outcome.1, outcome.2.files.readText ⟨"dist/app.js"⟩))
      hrun).symm.trans (by decide +kernel)
  obtain ⟨rfl, hcode⟩ := Prod.mk.inj hends
  have houtside : ∀ compilation compiled,
      ((copying [⟨"a.css"⟩]).translate releasing "b();").run.run styledProject =
        (.ok compilation, compiled) →
      ∀ file ∈ compilation.styleFiles, ¬ compiled.files.Within releasing.options.outputPath
        ((Style.baseIn compiled.files releasing.entry).join file) := by
    intro compilation compiled hcompiled file hfile
    have hfound : (Except.ok compilation, compiled.files.isDirectory ⟨"src/app"⟩,
        compiled.files.follow (compiled.files.start ⟨"dist"⟩) (Path.stem ⟨"dist"⟩),
        compiled.files.locate ⟨"src/a.css"⟩) =
          (.ok ⟨"b();", none, [⟨"a.css"⟩], []⟩, false, .ok ["dist"], .ok ["src", "a.css"]) :=
      (congrArg (fun outcome => (outcome.1, outcome.2.files.isDirectory ⟨"src/app"⟩,
        outcome.2.files.follow (outcome.2.files.start ⟨"dist"⟩) (Path.stem ⟨"dist"⟩),
        outcome.2.files.locate ⟨"src/a.css"⟩)) hcompiled).symm.trans (by decide +kernel)
    simp only [Prod.mk.injEq, Except.ok.injEq] at hfound
    obtain ⟨rfl, hentry, hfolder, hlocate⟩ := hfound
    obtain rfl := List.mem_singleton.1 hfile
    have hsheet : (Style.baseIn compiled.files releasing.entry).join ⟨"a.css"⟩ = ⟨"src/a.css"⟩ := by
      rw [Style.baseIn, show releasing.entry = ⟨"src/app"⟩ by decide, hentry]
      decide
    rintro ⟨folder, location, hfolder', hlocate', hway⟩
    rw [hsheet] at hlocate'
    obtain rfl := Except.ok.inj (hlocate.symm.trans hlocate')
    obtain rfl := Except.ok.inj (hfolder.symm.trans hfolder')
    exact absurd hway (by decide)
  obtain ⟨again, hagain, hsame⟩ := run_repeats (standard_copying _) (by decide) houtside hrun
  exact ⟨_, last, again, rfl, hagain, hsame, hcode⟩

end Loader

end MiniProgram
