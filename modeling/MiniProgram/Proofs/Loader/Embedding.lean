import MiniProgram.Proofs.Loader.Artifacts
import MiniProgram.Proofs.Source.Preservation
import MiniProgram.Proofs.Text.Position

/-!
# Where embedded source maps lead

A development build embeds the raw source in the map of the compiler, and the compiler has seen what
elimination leaves of that source. Read `run_embeds` first: a mapping leads to the same character in
both texts exactly when elimination cuts no line feed out in front of it, and nothing on its line.
-/

namespace MiniProgram

open FileTree Text

variable {σ : Type} {files : σ → FileTree}

/-- `map.Fills always place` says that the source of a place gets the raw text as its content. -/
def SourceMap.Fills (map : SourceMap) (always : Bool) (place : SourceMap.Place) : Prop :=
  ∃ source, map.sources[place.source]? = some source ∧ (always = true ∨ source.content = none)

/-- The content of the source that a place is in. -/
def SourceMap.contentAt (map : SourceMap) (place : SourceMap.Place) : Option String :=
  map.sources[place.source]?.bind SourceMap.Source.content

/-- Where embedding fills a source in, its content is the raw text. -/
theorem SourceMap.Fills.contentAt_embed {map : SourceMap} {always : Bool} {place : SourceMap.Place}
    (h : map.Fills always place) (raw : String) :
    (map.embed raw always).contentAt place = some raw := by
  obtain ⟨source, hsource, hfilled⟩ := h
  have hcontent : (if always then raw else source.content.getD raw) = raw := by
    rcases hfilled with rfl | hnone
    · rfl
    · rw [hnone, Option.getD_none, ite_self]
  rw [contentAt, embed, List.getElem?_map, hsource]
  exact congrArg some hcontent

namespace Loader

variable {loader : Loader (StateM σ)} {context : LoaderContext} {raw text : String}
  {state last produced : σ}

/-- If compiling succeeds, the compiler succeeded with the same result. -/
theorem exists_of_compile_ok {implementation : Implementation (StateM σ)} {source : String}
    {compilation : Compilation}
    (h : (loader.compile context implementation source).run.run state = (.ok compilation, last)) :
    (implementation.compiler source
      (CompilerOptions.merge implementation.baseOptions (runOptions context))).run.run state =
        (.ok compilation, last) := by
  rw [compile, run_lift_bind] at h
  rcases hcompiler : (implementation.compiler source
    (CompilerOptions.merge implementation.baseOptions (runOptions context))).run.run state
    with ⟨error | found, next⟩
  · rw [hcompiler] at h
    obtain ⟨_, _, -, hthrow⟩ := run_bind_eq_ok_iff.1 h
    cases congrArg Prod.fst hthrow
  · rw [hcompiler] at h
    obtain ⟨hfound, rfl⟩ := Prod.mk.inj h
    rw [Except.ok.inj hfound]

/-- `Compiles loader context source compilation` says that the compiler which the loader finds made
the compilation of that source. -/
def Compiles (loader : Loader (StateM σ)) (context : LoaderContext) (source : String)
    (compilation : Compilation) : Prop :=
  ∃ (implementation : Implementation (StateM σ)) (state found before after : σ),
    (loader.resolver loader.config.package context.root).run.run state =
      (.ok implementation, found) ∧
    (implementation.compiler source
      (CompilerOptions.merge implementation.baseOptions (runOptions context))).run.run before =
        (.ok compilation, after)

/-- What a run produces is what the compiler makes of the source without dead code. -/
theorem compiles_of_produce_ok {compilation : Compilation} {style : StyleOutput}
    (h : (loader.produce context raw).run.run state = (.ok (compilation, style), produced)) :
    loader.Compiles context (loader.eliminate raw) compilation := by
  simp only [produce, run_bind_eq_ok_iff] at h
  obtain ⟨-, made, -, implementation, found, hfound, compiled, next, hcompiled, sheet, styled, -,
    hend⟩ := h
  obtain ⟨rfl, -⟩ : compiled = compilation ∧ _ := Prod.mk.inj (Except.ok.inj (Prod.mk.inj hend).1)
  exact ⟨implementation, made, found, found, next, run_stage_eq_ok_iff.1 hfound,
    exists_of_compile_ok hcompiled⟩

/-- A development build leaves the code with its map behind it, and the raw source in the map,
unless the stylesheet takes the place of the code. -/
theorem exists_of_run_ok_watch (hloader : loader.Confined files)
    (hmode : context.options.mode = .watch)
    (h : (loader.run context raw).run.run state = (.ok text, last)) :
    ∃ compilation style produced,
      (loader.produce context raw).run.run state = (.ok (compilation, style), produced) ∧
      loader.Compiles context (loader.eliminate raw) compilation ∧
      ∀ map, compilation.map = some map →
        (files last).locate (outputOptions context).codePath ≠
            (files last).locate (outputOptions context).stylePath →
          (files last).readText (outputOptions context).codePath = .ok (compilation.code ++
            Output.inlineMap (map.embed raw context.resource.isTypeScript)) := by
  obtain ⟨compilation, style, produced, hproduced, hwrite, -⟩ := exists_of_run_ok h
  rw [hloader.writer] at hwrite
  obtain ⟨place, location, -, -, hleaves, hreplaces⟩ :=
    Output.exists_of_write_ok hloader.host hwrite
  refine ⟨compilation, style, produced, hproduced, compiles_of_produce_ok hproduced,
    fun map hmap hapart => ?_⟩
  have hne : place ≠ location := by
    intro hsame
    obtain ⟨_, -, hleft, hright, -⟩ := hreplaces hsame
    exact hapart (hleft.trans hright.symm)
  have hmode' : (outputOptions context).mode = .watch := hmode
  have htext : Output.codeText (artifacts compilation style) raw (outputOptions context) =
      compilation.code ++ Output.inlineMap (map.embed raw context.resource.isTypeScript) := by
    rw [Output.codeText, hmode', show (artifacts compilation style).map = some map from hmap]
    rfl
  obtain ⟨_, _, -, -, -, hread, -, -⟩ := hleaves hne
  rw [hread, htext]

/-- The content that a development build embeds for a mapping is the raw source, of which the
compiler got what elimination keeps. A character at the place of the mapping in what is kept has
that place in the raw source, too, exactly when elimination cuts no line feed out in front of it,
and nothing in front of it on its line. -/
theorem run_embeds (hloader : loader.Confined files)
    (heliminate : loader.eliminate = Source.eliminate)
    (hmode : context.options.mode = .watch)
    (h : (loader.run context raw).run.run state = (.ok text, last)) :
    ∃ compilation style produced,
      (loader.produce context raw).run.run state = (.ok (compilation, style), produced) ∧
      loader.Compiles context (Source.eliminate raw) compilation ∧
      (∃ marks : Marks,
        marks.whole = raw.toList ∧ marks.kept = (Source.eliminate raw).toList) ∧
      ∀ map, compilation.map = some map →
        ((files last).locate (outputOptions context).codePath ≠
            (files last).locate (outputOptions context).stylePath →
          (files last).readText (outputOptions context).codePath = .ok (compilation.code ++
            Output.inlineMap (map.embed raw context.resource.isTypeScript))) ∧
        (map.embed raw context.resource.isTypeScript).mappings = map.mappings ∧
        ∀ mapping ∈ map.mappings, ∀ place, mapping.place = some place →
          map.Fills context.resource.isTypeScript place →
          (map.embed raw context.resource.isTypeScript).contentAt place = some raw ∧
          ∀ width, (∀ c, 0 < width c) → ∀ marks : Marks, marks.whole = raw.toList →
            marks.kept = (Source.eliminate raw).toList → ∀ c,
            charAt width (Source.eliminate raw).toList (place.line, place.column) = some c →
            ∃ before behind : Marks, marks = before ++ (c, true) :: behind ∧
              (position width before.whole = (place.line, place.column) ↔ before.Intact) ∧
              (before.Intact →
                charAt width raw.toList (place.line, place.column) = some c) := by
  obtain ⟨compilation, style, produced, hproduced, hcompiles, hcode⟩ :=
    exists_of_run_ok_watch hloader hmode h
  rw [heliminate] at hcompiles
  refine ⟨compilation, style, produced, hproduced, hcompiles, ?_,
    fun map hmap => ⟨hcode map hmap, rfl, ?_⟩⟩
  · rw [Source.toList_eliminate]
    exact Marks.exists_iff_sublist.2 (Source.eliminateChars_sublist _)
  · intro mapping _ place _ hfills
    refine ⟨hfills.contentAt_embed raw, ?_⟩
    intro width hwidth marks hwhole hkept c hc
    rw [← hkept] at hc
    rw [← hwhole]
    exact Marks.exists_of_charAt_kept hwidth hc

section Echo

/-- The place that the start of the code is mapped to. -/
def startPlace : SourceMap.Place :=
  ⟨0, 0, 0, none⟩

/-- A map of the start of the code to the start of its source. -/
def startMap : SourceMap where
  file := none
  sourceRoot := none
  sources := [⟨"app.js", none⟩]
  names := []
  mappings := [⟨0, 0, some startPlace, false⟩]
  ignored := []
  debugId := none

/-- A compiler that leaves the source as it is. -/
def echo : Implementation (StateM Machine) where
  compiler source _ := pure ⟨source, some startMap, [], []⟩
  baseOptions := []
  version := none

/-- The loader with that compiler, on a machine where no program can be launched. -/
def echoing : Loader (StateM Machine) :=
  onFiles (Machine.host fun _ _ _ => .error .notFound) (fun _ _ => pure echo)
    ⟨false, compilerPackage⟩

/-- The loader that leaves sources as they are is confined to its output. -/
theorem confined_echoing : echoing.Confined Machine.files where
  host := Machine.atomic_host _
  writer := rfl
  resolver _ _ := moves_pure _
  compiler _ _ _ _ _ h _ _ := by
    obtain rfl : echo = _ := Except.ok.inj (congrArg Prod.fst h)
    exact moves_pure _
  styles sheets entry := (Style.moves_process (Machine.atomic_host _) sheets entry).moreDirectories

/-- An import that is cut out behind a character does not move it. -/
theorem run_embeds_start :
    echoing.Confined Machine.files ∧
      ∃ text last,
        (echoing.run (developing ".css") "b();\nimport a from 'a';\n").run.run (project []) =
          (.ok text, last) ∧
        Source.eliminate "b();\nimport a from 'a';\n" = "b();\n" ∧
        (startMap.embed "b();\nimport a from 'a';\n" false).contentAt startPlace =
          some "b();\nimport a from 'a';\n" ∧
        charAt (fun _ => 1) "b();\nimport a from 'a';\n".toList
          (startPlace.line, startPlace.column) = some 'b' := by
  rcases hrun : (echoing.run (developing ".css")
    "b();\nimport a from 'a';\n").run.run (project []) with ⟨result, last⟩
  obtain rfl : result = .ok (Dependency.moduleText ⟨"src/app.js"⟩ []) :=
    (congrArg Prod.fst hrun).symm.trans (by decide +kernel)
  have heliminated : Source.eliminate "b();\nimport a from 'a';\n" = "b();\n" := by
    decide +kernel
  obtain ⟨compilation, style, produced, -, ⟨implementation, _, _, _, _, hfound, hcompiled⟩, -,
    hmaps⟩ := run_embeds confined_echoing rfl rfl hrun
  obtain rfl : echo = implementation := Except.ok.inj (congrArg Prod.fst hfound)
  obtain rfl : _ = compilation := Except.ok.inj (congrArg Prod.fst hcompiled)
  have hfills : startMap.Fills false startPlace := ⟨⟨"app.js", none⟩, rfl, .inr rfl⟩
  obtain ⟨-, -, hplaces⟩ := hmaps startMap rfl
  obtain ⟨hcontent, hposition⟩ := hplaces _ (.head _) startPlace rfl hfills
  obtain ⟨before, behind, hsplit, -, hchar⟩ := hposition (fun _ => 1) (fun _ => Nat.one_pos)
    ("b();\n".toList.map (·, true) ++ "import a from 'a';\n".toList.map (·, false))
    (by decide) (by rw [heliminated]; decide) 'b' (by rw [heliminated]; decide)
  -- nothing else that is kept is the same character
  obtain rfl : before = [] := by
    cases before with
    | nil => rfl
    | cons mark before =>
        have hmem : ('b', true) ∈ before ++ ('b', true) :: behind := by simp
        rw [← show _ = before ++ ('b', true) :: behind from congrArg List.tail hsplit] at hmem
        exact absurd hmem (by decide)
  exact ⟨confined_echoing, _, last, rfl, heliminated, hcontent, hchar (by simp [Marks.Intact])⟩

/-- An import that is cut out in front of a line moves it up, and the map leads to another line of
the raw source. -/
theorem run_maps_elsewhere :
    ∃ text last,
      (echoing.run (developing ".css") "import a from 'a';\nb();\n").run.run (project []) =
        (.ok text, last) ∧
      last.files.readText ⟨"dist/app.js"⟩ = .ok ("b();\n" ++
        Output.inlineMap (startMap.embed "import a from 'a';\nb();\n" false)) ∧
      (startMap.embed "import a from 'a';\nb();\n" false).contentAt startPlace =
        some "import a from 'a';\nb();\n" ∧
      Source.eliminate "import a from 'a';\nb();\n" = "b();\n" ∧
      charAt (fun _ => 1) "b();\n".toList (startPlace.line, startPlace.column) = some 'b' ∧
      charAt (fun _ => 1) "import a from 'a';\nb();\n".toList
        (startPlace.line, startPlace.column) = some 'i' := by
  rcases hrun : (echoing.run (developing ".css")
    "import a from 'a';\nb();\n").run.run (project []) with ⟨result, last⟩
  have hends : (result, decide (last.files.locate ⟨"dist/app.js"⟩ =
      last.files.locate ⟨"dist/app.css"⟩)) =
        (.ok (Dependency.moduleText ⟨"src/app.js"⟩ []), false) :=
    (congrArg (fun outcome => (outcome.1, decide (outcome.2.files.locate ⟨"dist/app.js"⟩ =
      outcome.2.files.locate ⟨"dist/app.css"⟩))) hrun).symm.trans (by decide +kernel)
  obtain ⟨rfl, hapart⟩ := Prod.mk.inj hends
  have heliminated : Source.eliminate "import a from 'a';\nb();\n" = "b();\n" := by
    decide +kernel
  obtain ⟨compilation, style, produced, -, ⟨implementation, _, _, _, _, hfound, hcompiled⟩,
    hcode⟩ := exists_of_run_ok_watch confined_echoing rfl hrun
  obtain rfl : echo = implementation := Except.ok.inj (congrArg Prod.fst hfound)
  obtain rfl : _ = compilation := Except.ok.inj (congrArg Prod.fst hcompiled)
  refine ⟨_, last, rfl, ?_, rfl, heliminated, by decide, by decide⟩
  rw [← heliminated]
  exact hcode startMap rfl (of_decide_eq_false hapart)

end Echo

end Loader

end MiniProgram
