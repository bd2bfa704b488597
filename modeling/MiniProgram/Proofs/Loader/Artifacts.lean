import MiniProgram.Proofs.Loader.Collaborators

/-!
# What a run leaves

Read `run_artifacts` first: a run that succeeds leaves the code and the stylesheet in two files of
their own, and no other file has changed, if and only if the paths of the two lead to different
places. The path of the code ends with a constant and the path of the stylesheet with an extension
that the platform gives, and nothing keeps the two apart. Where they meet the stylesheet replaces
the code, which is then in no file.
-/

namespace MiniProgram

open FileTree

variable {σ : Type} {files : σ → FileTree}

namespace Output

/-- `Leaves options code style tree next` says that what became of a tree is that two files were
written: one with the code where the path of the code leads, and another one with the style where
the path of the style leads. -/
def Leaves (options : OutputOptions) (code style : String) (tree next : FileTree) : Prop :=
  ∃ place location, place ≠ location ∧ tree.Grows [place, location] next ∧
    next.locate options.codePath = .ok place ∧ next.readText options.codePath = .ok code ∧
    next.locate options.stylePath = .ok location ∧ next.readText options.stylePath = .ok style

/-- `Replaces options style tree next` says that what became of a tree is that one file was written,
where both paths lead, and that it holds the style. -/
def Replaces (options : OutputOptions) (style : String) (tree next : FileTree) : Prop :=
  ∃ location, tree.Grows [location] next ∧ next.locate options.codePath = .ok location ∧
    next.locate options.stylePath = .ok location ∧ next.readText options.codePath = .ok style

variable {options : OutputOptions} {code style : String} {tree middle next : FileTree}

/-- Two files are left as well if only directories were made before. -/
theorem Leaves.of_grows (hgrows : tree.Grows [] middle)
    (h : Leaves options code style middle next) : Leaves options code style tree next := by
  obtain ⟨place, location, hne, hgrows', hrest⟩ := h
  exact ⟨place, location, hne, hgrows.weaken.trans hgrows', hrest⟩

/-- One file is left as well if only directories were made before. -/
theorem Replaces.of_grows (hgrows : tree.Grows [] middle) (h : Replaces options style middle next) :
    Replaces options style tree next := by
  obtain ⟨location, hgrows', hrest⟩ := h
  exact ⟨location, hgrows.weaken.trans hgrows', hrest⟩

/-- Where two files are left the two paths lead to different places. -/
theorem Leaves.locate_ne (h : Leaves options code style tree next) :
    next.locate options.codePath ≠ next.locate options.stylePath := by
  obtain ⟨place, location, hne, -, hcode, -, hstyle, -⟩ := h
  rw [hcode, hstyle]
  exact fun heq => hne (Except.ok.inj heq)

/-- Writing leaves the output in two files, unless the style is written where the code stands. -/
theorem exists_of_write_ok {host : Host (StateM σ)} (hhost : host.Atomic files)
    {artifacts : Artifacts} {raw : String} {state last : σ}
    (h : (write host artifacts raw options).run.run state = (.ok (), last)) :
    ∃ place location, (files last).target options.codePath = .ok (.named place false) ∧
      (files last).target options.stylePath = .ok (.named location false) ∧
      (place ≠ location → Leaves options (codeText artifacts raw options)
        (styleText artifacts options) (files state) (files last)) ∧
      (place = location →
        Replaces options (styleText artifacts options) (files state) (files last)) := by
  rcases write_cases hhost h with ⟨-, _, hfault⟩ | ⟨-, _, hfault⟩ |
    ⟨⟨place, location, hgrows, htarget, hcode, hstyle⟩, -⟩
  · cases hfault
  · cases hfault
  · refine ⟨place, location, htarget, hstyle.target, fun hne => ?_, ?_⟩
    · exact ⟨place, location, hne, hgrows, (hcode hne).locate, (hcode hne).readText,
        hstyle.locate, hstyle.readText⟩
    · rintro rfl
      have hreplaced : (files last).Written options.codePath place
          (styleText artifacts options).toUTF8 := ⟨htarget, hstyle.file⟩
      exact ⟨place, hgrows.mono (by simp), hreplaced.locate, hstyle.locate, hreplaced.readText⟩

end Output

namespace Loader

variable {loader : Loader (StateM σ)} {context : LoaderContext} {raw : String} {state last : σ}

/-- The stylesheet has a name that a file can have, if its extension holds no slash. -/
theorem isFileName_stylesheetName (platform : Platform) (h : '/' ∉ platform.cssExtension.toList) :
    Path.isFileName (platform.stylesheetName appStem) = true := by
  have hhead : (platform.stylesheetName appStem).toList = 'a' :: 'p' :: 'p' ::
      platform.cssExtension.toList := by
    simp [Platform.stylesheetName, appStem]
  have hne : ∀ word : String, word.toList.head? ≠ some 'a' →
      platform.stylesheetName appStem ≠ word := by
    rintro word hword rfl
    simp [hhead] at hword
  simp [Path.isFileName, hhead, h, hne "" (by decide), hne "." (by decide), hne ".." (by decide)]

/-- The code and the stylesheet go to the same place if and only if they have the same extension,
as long as there is no separator in it. -/
theorem outputPaths_meet_iff (hext : '/' ∉ context.options.platform.cssExtension.toList)
    {tree : FileTree} {place location : Location}
    (hcode : tree.target (outputOptions context).codePath = .ok (.named place false))
    (hstyle : tree.target (outputOptions context).stylePath = .ok (.named location false)) :
    place = location ↔ context.options.platform.cssExtension = ".js" := by
  have hname : Path.isFileName (appStem ++ ".js") = true := by decide
  obtain ⟨directory, hdirectory, rfl⟩ := exists_of_target_div hname hcode
  obtain ⟨directory', hdirectory', rfl⟩ :=
    exists_of_target_div (isFileName_stylesheetName _ hext) hstyle
  obtain rfl : directory = directory' := Except.ok.inj (hdirectory.symm.trans hdirectory')
  simp [Platform.stylesheetName, eq_comm]

/-- A run that succeeds leaves what it produced in two files if and only if the paths of the two
lead to different places afterwards. Else the stylesheet replaces the code. An extension without a
separator makes the paths meet if and only if it is the one of the code. -/
theorem run_artifacts (hloader : loader.Confined files) {text : String}
    (h : (loader.run context raw).run.run state = (.ok text, last)) :
    ∃ compilation style produced,
      (loader.produce context raw).run.run state = (.ok (compilation, style), produced) ∧
      (Output.Leaves (outputOptions context)
          (Output.codeText (artifacts compilation style) raw (outputOptions context))
          (Output.styleText (artifacts compilation style) (outputOptions context))
          (files state) (files last) ↔
        (files last).locate (outputOptions context).codePath ≠
          (files last).locate (outputOptions context).stylePath) ∧
      ((files last).locate (outputOptions context).codePath =
          (files last).locate (outputOptions context).stylePath →
        Output.Replaces (outputOptions context)
          (Output.styleText (artifacts compilation style) (outputOptions context))
          (files state) (files last)) ∧
      ('/' ∉ context.options.platform.cssExtension.toList →
        ((files last).locate (outputOptions context).codePath =
            (files last).locate (outputOptions context).stylePath ↔
          context.options.platform.cssExtension = ".js")) := by
  obtain ⟨compilation, style, produced, hproduced, hwrite, -⟩ := exists_of_run_ok h
  have hproduce := moves_produce hloader context raw state
  rw [hproduced] at hproduce
  have hgrows : (files state).Grows [] (files produced) := hproduce
  rw [hloader.writer] at hwrite
  obtain ⟨place, location, hcode, hstyle, hleaves, hreplaces⟩ :=
    Output.exists_of_write_ok hloader.host hwrite
  have hmeet : (files last).locate (outputOptions context).codePath =
      (files last).locate (outputOptions context).stylePath ↔ place = location := by
    refine ⟨fun heq => ?_, fun heq => ?_⟩
    · by_contra hne
      exact (hleaves hne).locate_ne heq
    · obtain ⟨_, -, hleft, hright, -⟩ := hreplaces heq
      exact hleft.trans hright.symm
  refine ⟨compilation, style, produced, hproduced, ⟨Output.Leaves.locate_ne, fun hne => ?_⟩,
    fun heq => ?_, fun hext => hmeet.trans (outputPaths_meet_iff hext hcode hstyle)⟩
  · exact (hleaves fun heq => hne (hmeet.2 heq)).of_grows hgrows
  · exact (hreplaces (hmeet.1 heq)).of_grows hgrows

section Extensions

/-- A run on a platform whose stylesheets have an extension of their own leaves both files. -/
theorem run_artifacts_css :
    (installed plainResponse).Confined Machine.files ∧
      ∃ text last,
        ((installed plainResponse).run (developing ".css") "").run.run (project []) =
          (.ok text, last) ∧
        Output.Leaves (outputOptions (developing ".css")) "X" baseStyle (project []).files
          last.files := by
  have hconfined := confined_installed plainResponse
  rcases hrun : ((installed plainResponse).run (developing ".css") "").run.run (project [])
    with ⟨result, last⟩
  obtain rfl : result = .ok (Dependency.moduleText ⟨"src/app.js"⟩ []) :=
    (congrArg Prod.fst hrun).symm.trans (by decide +kernel)
  refine ⟨hconfined, _, last, rfl, ?_⟩
  obtain ⟨compilation, style, produced, hproduced, hleaves, -, hext⟩ := run_artifacts hconfined hrun
  have hproduct : (.ok (compilation, style) : Except LoaderFault _) =
      .ok (⟨"X", none, [], []⟩, ⟨"", []⟩) :=
    (congrArg Prod.fst hproduced).symm.trans (by decide +kernel)
  obtain ⟨rfl, rfl⟩ := Prod.mk.inj (Except.ok.inj hproduct)
  have hapart : (".css" : String) ≠ ".js" := by decide
  exact hleaves.2 fun heq => hapart ((hext (by decide)).1 heq)

/-- Loader options of a platform whose stylesheets have the extension of the code. -/
def scriptStyles : String :=
  "\x7b\"entryPath\":\"src/app\",\"outputPath\":\"dist\",\"platform\":\x7b\"name\":" ++
    "\"Test Platform\",\"extension\":\x7b\"css\":\".js\"\x7d\x7d\x7d"

/-- A run with such options succeeds, and then there is a stylesheet where the code should stand. -/
theorem run_loses_code :
    (Json.decode LoaderOptions.decode scriptStyles).toOption = some (developing ".js").options ∧
      ∃ text last compilation style produced,
        ((installed plainResponse).run (developing ".js") "").run.run (project []) =
          (.ok text, last) ∧
        ((installed plainResponse).produce (developing ".js") "").run.run (project []) =
          (.ok (compilation, style), produced) ∧
        ¬ Output.Leaves (outputOptions (developing ".js"))
          (Output.codeText (artifacts compilation style) "" (outputOptions (developing ".js")))
          (Output.styleText (artifacts compilation style) (outputOptions (developing ".js")))
          (project []).files last.files ∧
        last.files.readText ⟨"dist/app.js"⟩ = .ok baseStyle := by
  rcases hrun : ((installed plainResponse).run (developing ".js") "").run.run (project [])
    with ⟨result, last⟩
  have hends : (result, last.files.readText ⟨"dist/app.js"⟩) =
      (.ok (Dependency.moduleText ⟨"src/app.js"⟩ []), .ok baseStyle) :=
    (congrArg (fun outcome => (outcome.1, outcome.2.files.readText ⟨"dist/app.js"⟩))
      hrun).symm.trans (by decide +kernel)
  obtain ⟨rfl, hstyle⟩ := Prod.mk.inj hends
  obtain ⟨compilation, style, produced, hproduced, -⟩ := exists_of_run_ok hrun
  refine ⟨by decide +kernel, _, last, compilation, style, produced, rfl, hproduced, ?_, hstyle⟩
  exact fun hleaves => hleaves.locate_ne rfl

end Extensions

end Loader

end MiniProgram
