import MiniProgram.Proofs.Loader.Artifacts
import MiniProgram.Proofs.Style.Processing

/-!
# The stylesheet of an app, from files to bytes

Read `run_stylesheet` first: once the source is compiled and its stylesheets can be read, a run can
fail only at its output, and the stylesheet that it leaves is the base rules followed by the style
of the app. In a production build the style of the app is compacted, and the base rules are not,
even if that style repeats them or ends inside of a comment.
-/

namespace MiniProgram

variable {σ : Type} {files : σ → FileTree}

namespace Output

/-- The style of an app as it stands behind the base rules. -/
def ownStyle (mode : Mode) (style : String) : String :=
  match mode with
  | .build => String.ofList (Style.compact style.toList)
  | .watch => style

/-- The base style stands in front of the style, whether there is one or not. -/
theorem mergeStyle_eq (style : String) :
    mergeStyle (if style = "" then none else some style) = baseStyle ++ style := by
  rw [mergeStyle]
  split
  · next h => rw [h, Option.getD_none]
  · rw [Option.getD_some]

/-- Whatever stands behind the base rules, they are found in front of it. -/
theorem compactStyle_append (style : String) :
    compactStyle (baseStyle ++ style) =
      baseStyle ++ String.ofList (Style.compact style.toList) := by
  have hrest : baseStyle.toList.isPrefixOf? (baseStyle ++ style).toList = some style.toList := by
    rw [List.isPrefixOf?_eq_some_iff_append_eq, String.toList_append]
  unfold compactStyle
  -- the cases are split, as rewriting with `hrest` makes Lean compute the base rules
  split
  · next rest h => rw [Option.some.inj (h.symm.trans hrest)]
  · next h => cases h.symm.trans hrest

/-- The stylesheet of what a run produces is the base rules, and the style of the app behind. -/
theorem styleText_artifacts (compilation : Compilation) (style : StyleOutput)
    (options : OutputOptions) :
    styleText (Loader.artifacts compilation style) options =
      baseStyle ++ ownStyle options.mode style.style := by
  have hmerged : (Loader.artifacts compilation style).style = baseStyle ++ style.style :=
    mergeStyle_eq style.style
  rw [styleText, hmerged]
  cases options.mode with
  | watch => rfl
  | build => exact compactStyle_append style.style

end Output

namespace Loader

section Cut

variable {m : Type → Type} [Monad m]

/-- What a run does before it turns to the stylesheets. -/
def translate (loader : Loader m) (context : LoaderContext) (raw : String) :
    ExceptT LoaderFault m Compilation := do
  loader.makeOutput context
  let implementation ← stage .resolve (loader.resolver loader.config.package context.root)
  loader.compile context implementation (loader.eliminate raw)

/-- Processes the stylesheets of what was compiled. -/
def stylize (loader : Loader m) (context : LoaderContext) (compilation : Compilation) :
    ExceptT LoaderFault m (Compilation × StyleOutput) := do
  let style ← stage .style (loader.styles compilation.styleFiles context.entry)
  return (compilation, style)

/-- A run produces by translating the source and then turning to the stylesheets. -/
theorem produce_eq [LawfulMonad m] (loader : Loader m) (context : LoaderContext) (raw : String) :
    loader.produce context raw = loader.translate context raw >>= loader.stylize context := by
  simp only [produce, translate, bind_assoc]
  rfl

end Cut

section Run

variable {loader : Loader (StateM σ)} {context : LoaderContext} {raw : String}
  {compilation : Compilation} {style : StyleOutput} {state compiled last : σ}
  {result : Except LoaderFault String}

/-- Processing stylesheets answers with their joined texts exactly if all of them can be read. -/
theorem run_styles_eq_ok_iff (hfaithful : loader.host.Faithful files)
    (hstyles : loader.styles = Style.process loader.host) :
    (∃ styled, (loader.styles compilation.styleFiles context.entry).run.run compiled =
        (.ok style, styled)) ↔
      ∃ found, Style.ReadsAll (files compiled) context.entry compilation.styleFiles found ∧
        style = Style.join (Style.baseIn (files compiled) context.entry) found := by
  have hanswer : ((loader.styles compilation.styleFiles context.entry).run.run compiled).1 =
      Style.processed (files compiled) compilation.styleFiles context.entry := by
    rw [hstyles]
    exact (Style.asks_process hfaithful _ _ compiled).1
  rw [← Style.processed_eq_ok_iff, ← hanswer]
  rcases (loader.styles compilation.styleFiles context.entry).run.run compiled
    with ⟨answer, styled⟩
  exact ⟨fun ⟨_, h⟩ => congrArg Prod.fst h, fun h => ⟨styled, congrArg (·, styled) h⟩⟩

/-- A run whose source is compiled and whose stylesheets are processed has only to leave them. -/
theorem run_of_styles_ok {styled : σ}
    (hcompiled : (loader.translate context raw).run.run state = (.ok compilation, compiled))
    (hstyled : (loader.styles compilation.styleFiles context.entry).run.run compiled =
      (.ok style, styled)) :
    (loader.run context raw).run.run state =
      (loader.finish context raw (compilation, style)).run.run styled := by
  have hstylize : (loader.stylize context compilation).run.run compiled =
      (.ok (compilation, style), styled) := by
    rw [stylize, run_bind_of_ok (run_stage_of_ok hstyled)]
    rfl
  have hproduced : (loader.produce context raw).run.run state =
      (.ok (compilation, style), styled) := by
    rw [produce_eq, run_bind_of_ok hcompiled, hstylize]
  rw [run_eq, run_bind_of_ok hproduced]

/-- A run that succeeds has compiled its source and processed its stylesheets. -/
theorem exists_of_run_ok_styles {text : String}
    (h : (loader.run context raw).run.run state = (.ok text, last)) :
    ∃ compilation compiled style styled,
      (loader.translate context raw).run.run state = (.ok compilation, compiled) ∧
      (loader.styles compilation.styleFiles context.entry).run.run compiled =
        (.ok style, styled) := by
  obtain ⟨_, _, _, hproduced, -⟩ := exists_of_run_ok h
  rw [produce_eq, run_bind_eq_ok_iff] at hproduced
  obtain ⟨compilation, compiled, hcompiled, hstylize⟩ := hproduced
  rw [stylize, run_bind_eq_ok_iff] at hstylize
  obtain ⟨style, styled, hstyled, -⟩ := hstylize
  exact ⟨compilation, compiled, style, styled, hcompiled, run_stage_eq_ok_iff.1 hstyled⟩

/-- Once the source is compiled, and all stylesheets can be read, a run can fail only at its output.
If it does not, then the stylesheet that it leaves is made of the base rules and the texts of the
stylesheets in their order, which a production build compacts. A run that succeeds gets there. -/
theorem run_stylesheet (hhost : loader.host.Atomic files) (hfaithful : loader.host.Faithful files)
    (hstyles : loader.styles = Style.process loader.host)
    (hwriter : loader.writer = Output.write loader.host)
    (h : (loader.run context raw).run.run state = (result, last)) :
    (∀ compilation compiled found,
      (loader.translate context raw).run.run state = (.ok compilation, compiled) →
      Style.ReadsAll (files compiled) context.entry compilation.styleFiles found →
      (∃ cause, result = .error (.output cause)) ∨
        result = .ok (Dependency.moduleText context.resource compilation.dependencies) ∧
          (files last).readText (outputOptions context).stylePath =
            .ok (baseStyle ++ Output.ownStyle context.options.mode
              ("\n".intercalate (found.map Style.Sheet.text)))) ∧
      ∀ text, result = .ok text → ∃ compilation compiled found,
        (loader.translate context raw).run.run state = (.ok compilation, compiled) ∧
        Style.ReadsAll (files compiled) context.entry compilation.styleFiles found := by
  constructor
  · intro compilation compiled found hcompiled hfound
    obtain ⟨styled, hstyled⟩ := (run_styles_eq_ok_iff hfaithful hstyles).2 ⟨found, hfound, rfl⟩
    rw [run_of_styles_ok hcompiled hstyled] at h
    rcases finish_cases h with ⟨cause, hcause, -⟩ | ⟨htext, hwrite⟩
    · exact .inl ⟨cause, hcause⟩
    · rw [hwriter] at hwrite
      rcases Output.write_cases hhost hwrite with ⟨-, _, hfault⟩ | ⟨-, _, hfault⟩ |
        ⟨⟨_, _, -, -, -, hwritten⟩, -⟩
      · cases hfault
      · cases hfault
      · refine .inr ⟨htext, ?_⟩
        rw [hwritten.readText, Output.styleText_artifacts]
        rfl
  · rintro text rfl
    obtain ⟨compilation, compiled, style, styled, hcompiled, hstyled⟩ := exists_of_run_ok_styles h
    obtain ⟨found, hfound, -⟩ := (run_styles_eq_ok_iff hfaithful hstyles).1 ⟨styled, hstyled⟩
    exact ⟨compilation, compiled, found, hcompiled, hfound⟩

end Run

section Repeated

/-- The response of a compiler program for an app with two stylesheets. -/
def styledResponse : String :=
  "\x7b\"code\":\"X\",\"cssFiles\":[\"a.css\",\"b.css\"]\x7d"

/-- Two stylesheets. The first one starts as the base rules do and opens a comment, which the second
one closes. -/
def sheets : List Style.Sheet := [
  ⟨⟨"src/a.css"⟩, ".__rax-view \x7b\n  border: 0; /* a"⟩,
  ⟨⟨"src/b.css"⟩, "b */ \x7d\n\n.c \x7b\x7d"⟩]

/-- A project with these stylesheets. -/
def styledProject : Machine :=
  project [
    (["src"], .directory),
    (["src", "a.css"], .file ".__rax-view \x7b\n  border: 0; /* a".toUTF8 false),
    (["src", "b.css"], .file "b */ \x7d\n\n.c \x7b\x7d".toUTF8 false)]

/-- A production build of an app. -/
def releasing : LoaderContext :=
  { developing ".css" with options := { (developing ".css").options with mode := .build } }

/-- A production build leaves the base rules, and behind them the joined stylesheets without the
comment that starts in one and ends in the other. -/
theorem run_stylesheet_repeated :
    ∃ compilation compiled text last,
      ((installed styledResponse).translate releasing "").run.run styledProject =
        (.ok compilation, compiled) ∧
      Style.ReadsAll compiled.files releasing.entry compilation.styleFiles sheets ∧
      ((installed styledResponse).run releasing "").run.run styledProject = (.ok text, last) ∧
      last.files.readText ⟨"dist/app.css"⟩ =
        .ok (baseStyle ++ ".__rax-view \x7b\nborder: 0;  \x7d\n.c \x7b\x7d") := by
  rcases hcompiled : ((installed styledResponse).translate releasing "").run.run styledProject
    with ⟨answer, compiled⟩
  rcases hrun : ((installed styledResponse).run releasing "").run.run styledProject
    with ⟨result, last⟩
  have hends : (answer, compiled.files.isDirectory ⟨"src/app"⟩,
      compiled.files.readText ⟨"src/a.css"⟩, compiled.files.readText ⟨"src/b.css"⟩) =
        (.ok ⟨"X", none, [⟨"a.css"⟩, ⟨"b.css"⟩], []⟩, false,
          .ok ".__rax-view \x7b\n  border: 0; /* a", .ok "b */ \x7d\n\n.c \x7b\x7d") :=
    (congrArg (fun outcome => (outcome.1, outcome.2.files.isDirectory ⟨"src/app"⟩,
      outcome.2.files.readText ⟨"src/a.css"⟩, outcome.2.files.readText ⟨"src/b.css"⟩))
      hcompiled).symm.trans (by decide +kernel)
  simp only [Prod.mk.injEq] at hends
  obtain ⟨rfl, hdirectory, hfirst, hsecond⟩ := hends
  have hbase : Style.baseIn compiled.files releasing.entry = ⟨"src"⟩ := by
    rw [Style.baseIn, show releasing.entry = ⟨"src/app"⟩ by decide, hdirectory]
    decide
  have hsheets : Style.ReadsAll compiled.files releasing.entry [⟨"a.css"⟩, ⟨"b.css"⟩] sheets := by
    rw [Style.ReadsAll, hbase]
    exact .cons ⟨by decide, hfirst⟩ (.cons ⟨by decide, hsecond⟩ .nil)
  obtain rfl : result = .ok (Dependency.moduleText ⟨"src/app.js"⟩ []) :=
    (congrArg Prod.fst hrun).symm.trans (by decide +kernel)
  obtain ⟨hleft, -⟩ := run_stylesheet (Machine.atomic_host _) (Machine.faithful_host _) rfl rfl hrun
  rcases hleft _ _ _ hcompiled hsheets with ⟨_, hfault⟩ | ⟨-, hstyle⟩
  · cases hfault
  · have hown : Output.ownStyle .build ("\n".intercalate (sheets.map Style.Sheet.text)) =
        ".__rax-view \x7b\nborder: 0;  \x7d\n.c \x7b\x7d" := by
      decide +kernel
    refine ⟨_, compiled, _, last, rfl, hsheets, rfl, ?_⟩
    rw [← hown]
    exact hstyle

end Repeated

end Loader

end MiniProgram
