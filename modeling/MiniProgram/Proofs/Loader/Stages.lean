import MiniProgram.Loader
import MiniProgram.Proofs.Host.Action

/-!
# The stages of a run

A run first produces what it is going to leave, and then leaves it: `run_eq` cuts a run into
`produce` and `finish`. Up to the cut a run makes no more than directories (`moves_produce`), as
long as its collaborators change no file. Behind the cut it writes two files, one after the other,
and `Output.write_cases` lists how far it can come.
-/

namespace MiniProgram

open FileTree

variable {σ : Type} {files : σ → FileTree}

namespace Output

variable {host : Host (StateM σ)} {state last : σ} {result : Except OutputFault Unit}

/-- Making the directory of a file adds no more than directories. -/
theorem moves_makeParent (hhost : host.Atomic files) (path : Path) :
    Moves (MoreDirectories files) (makeParent host path) := by
  rw [makeParent]
  split
  · exact hhost.createDirectories _
  · exact moves_pure _

/-- Writing a file fails and leaves no more than directories, or it succeeds and leaves the file. -/
theorem writeFile_cases (hhost : host.Atomic files) {path : Path} {text : String}
    (h : (writeFile host path text).run.run state = (result, last)) :
    (∃ fault, result = .error ⟨path, fault⟩) ∧ (files state).Grows [] (files last) ∨
      result = .ok () ∧ ∃ location, (files state).Grows [location] (files last) ∧
        (files last).Written path location text.toUTF8 := by
  have hparent := moves_makeParent hhost path state
  rw [writeFile, run_lift_bind] at h
  rcases hmade : (makeParent host path).run state with ⟨fault | _, made⟩ <;>
    rw [hmade] at h hparent
  · obtain ⟨rfl, rfl⟩ := Prod.mk.inj h
    exact .inl ⟨⟨fault, rfl⟩, hparent⟩
  · have hgrows : (files state).Grows [] (files made) := hparent
    simp only [run_lift_bind] at h
    rcases hwritten : (host.writeText path text).run made with ⟨fault | _, written⟩ <;>
      rw [hwritten] at h <;> obtain ⟨rfl, rfl⟩ := Prod.mk.inj h
    · have hsame := hhost.writeText_error _ _ _ _ _ hwritten
      exact .inl ⟨⟨fault, rfl⟩, by rwa [hsame]⟩
    · obtain ⟨location, -, hwrite, hfile⟩ := exists_of_write (hhost.writeText_ok _ _ _ _ hwritten)
      exact .inr ⟨rfl, location, hgrows.weaken.trans hwrite, hfile⟩

/-- How far writing the code and the style can come: it fails at the code and leaves no more than
directories, it fails at the style and leaves the code, or it leaves both. The style is written
last, so it stands even where it takes the place of the code. -/
theorem write_cases (hhost : host.Atomic files) {artifacts : Artifacts} {raw : String}
    {options : OutputOptions}
    (h : (write host artifacts raw options).run.run state = (result, last)) :
    (files state).Grows [] (files last) ∧ (∃ fault, result = .error ⟨options.codePath, fault⟩) ∨
      (∃ location, (files state).Grows [location] (files last) ∧
        (files last).Written options.codePath location (codeText artifacts raw options).toUTF8) ∧
        (∃ fault, result = .error ⟨options.stylePath, fault⟩) ∨
      (∃ place location, (files state).Grows [place, location] (files last) ∧
        (files last).target options.codePath = .ok (.named place false) ∧
        (place ≠ location → (files last).Written options.codePath place
          (codeText artifacts raw options).toUTF8) ∧
        (files last).Written options.stylePath location (styleText artifacts options).toUTF8) ∧
        result = .ok () := by
  rw [write] at h
  rcases hcode : (writeFile host options.codePath (codeText artifacts raw options)).run.run state
    with ⟨codeResult, middle⟩
  rcases writeFile_cases hhost hcode with ⟨⟨fault, rfl⟩, hgrows⟩ | ⟨rfl, place, hgrows, hwritten⟩
  · rw [run_bind_of_error hcode] at h
    obtain ⟨rfl, rfl⟩ := Prod.mk.inj h
    exact .inl ⟨hgrows, fault, rfl⟩
  · rw [run_bind_of_ok hcode] at h
    rcases writeFile_cases hhost h with ⟨hfault, hgrows'⟩ | ⟨rfl, location, hgrows', hwritten'⟩
    · have hkept := hwritten.grow hgrows' List.not_mem_nil
      exact .inr (.inl ⟨⟨place, hgrows.trans hgrows'.weaken, hkept⟩, hfault⟩)
    · refine .inr (.inr ⟨⟨place, location, ?_, hgrows'.target hwritten.target, ?_, hwritten'⟩, rfl⟩)
      · exact (hgrows.mono (by simp)).trans (hgrows'.mono (by simp))
      · exact fun hne => hwritten.grow hgrows' (by simpa using hne)

end Output

namespace Loader

section Cut

variable {m : Type → Type} [Monad m]

/-- All that a run does before it leaves anything: what the compiler makes of the source, and what
the stylesheets make up. -/
def produce (loader : Loader m) (context : LoaderContext) (raw : String) :
    ExceptT LoaderFault m (Compilation × StyleOutput) := do
  loader.makeOutput context
  let implementation ← stage .resolve (loader.resolver loader.config.package context.root)
  let compilation ← loader.compile context implementation (loader.eliminate raw)
  let style ← stage .style (loader.styles compilation.styleFiles context.entry)
  return (compilation, style)

/-- Leaves what a run has produced, and answers with the module that replaces the app. -/
def finish (loader : Loader m) (context : LoaderContext) (raw : String)
    (product : Compilation × StyleOutput) : ExceptT LoaderFault m String := do
  stage .output (loader.writer (artifacts product.1 product.2) raw (outputOptions context))
  return Dependency.moduleText context.resource product.1.dependencies

/-- A run produces and then leaves. -/
theorem run_eq [LawfulMonad m] (loader : Loader m) (context : LoaderContext) (raw : String) :
    loader.run context raw = loader.produce context raw >>= loader.finish context raw := by
  simp only [run, produce, finish, bind_assoc, pure_bind]

end Cut

section Stages

variable {ε α : Type} {fault : ε → LoaderFault} {action : ExceptT ε (StateM σ) α} {state next : σ}

/-- A stage succeeds with its action. -/
theorem run_stage_of_ok {a : α} (h : action.run.run state = (.ok a, next)) :
    (stage fault action).run.run state = (.ok a, next) := by
  rw [stage, run_lift_bind, h]
  rfl

/-- A stage fails with its action, with a fault of the run. -/
theorem run_stage_of_error {cause : ε} (h : action.run.run state = (.error cause, next)) :
    (stage fault action).run.run state = (.error (fault cause), next) := by
  rw [stage, run_lift_bind, h]
  rfl

/-- A stage succeeds exactly if its action does. -/
theorem run_stage_eq_ok_iff {a : α} :
    (stage fault action).run.run state = (.ok a, next) ↔
      action.run.run state = (.ok a, next) := by
  rcases h : action.run.run state with ⟨cause | b, last⟩
  · rw [run_stage_of_error h]
    grind
  · rw [run_stage_of_ok h]
    grind

/-- A stage takes every state to a related one if its action does. -/
theorem moves_stage {relation : σ → σ → Prop} [IsPreorder σ relation]
    (h : Moves relation action.run) : Moves relation (stage fault action).run := by
  rw [stage]
  refine h.liftBind fun answer => ?_
  split <;> exact moves_pure _

/-- Leaving the output ends as writing it does, and answers with the text of a module. -/
theorem finish_cases {loader : Loader (StateM σ)} {context : LoaderContext} {raw : String}
    {product : Compilation × StyleOutput} {result : Except LoaderFault String}
    (h : (loader.finish context raw product).run.run state = (result, next)) :
    (∃ cause, result = .error (.output cause) ∧
      (loader.writer (artifacts product.1 product.2) raw (outputOptions context)).run.run state =
        (.error cause, next)) ∨
      result = .ok (Dependency.moduleText context.resource product.1.dependencies) ∧
        (loader.writer (artifacts product.1 product.2) raw (outputOptions context)).run.run state =
          (.ok (), next) := by
  rw [finish] at h
  rcases hwriter : (loader.writer (artifacts product.1 product.2) raw
    (outputOptions context)).run.run state with ⟨cause | _, last⟩
  · rw [run_bind_of_error (run_stage_of_error hwriter)] at h
    obtain ⟨rfl, rfl⟩ := Prod.mk.inj h
    exact .inl ⟨cause, rfl, rfl⟩
  · rw [run_bind_of_ok (run_stage_of_ok hwriter)] at h
    obtain ⟨rfl, rfl⟩ := Prod.mk.inj h
    exact .inr ⟨rfl, rfl⟩

/-- A run that succeeds has produced something and left it, and answers with the text of a
module. -/
theorem exists_of_run_ok {loader : Loader (StateM σ)} {context : LoaderContext}
    {raw text : String} (h : (loader.run context raw).run.run state = (.ok text, next)) :
    ∃ compilation style produced,
      (loader.produce context raw).run.run state = (.ok (compilation, style), produced) ∧
      (loader.writer (artifacts compilation style) raw (outputOptions context)).run.run produced =
        (.ok (), next) ∧
      text = Dependency.moduleText context.resource compilation.dependencies := by
  rw [run_eq, run_bind_eq_ok_iff] at h
  obtain ⟨⟨compilation, style⟩, produced, hproduced, h⟩ := h
  rcases finish_cases h with ⟨_, hfault, -⟩ | ⟨htext, hwriter⟩
  · cases hfault
  · exact ⟨compilation, style, produced, hproduced, hwriter, Except.ok.inj htext⟩

end Stages

section Confinement

/-- A loader that writes its output to the files of its host, where operations are all or nothing,
and whose other collaborators change no file. They may make directories. -/
structure Confined (loader : Loader (StateM σ)) (files : σ → FileTree) : Prop where
  host : loader.host.Atomic files
  writer : loader.writer = Output.write loader.host
  resolver : ∀ name root, Moves (MoreDirectories files) (loader.resolver name root).run
  compiler : ∀ name root state implementation next,
    (loader.resolver name root).run.run state = (.ok implementation, next) →
    ∀ source options, Moves (MoreDirectories files) (implementation.compiler source options).run
  styles : ∀ sheets entry, Moves (MoreDirectories files) (loader.styles sheets entry).run

variable {loader : Loader (StateM σ)} {context : LoaderContext}

/-- Making the output directory adds no more than directories. -/
theorem moves_makeOutput (hhost : loader.host.Atomic files) (context : LoaderContext) :
    Moves (MoreDirectories files) (loader.makeOutput context).run := by
  rw [makeOutput]
  refine (hhost.createDirectories _).liftBind fun answer => ?_
  split <;> exact moves_pure _

/-- Reporting messages changes no file. -/
theorem moves_forM_report (hhost : loader.host.Atomic files) (messages : List String) :
    Moves (SameFiles files)
      (messages.forM fun message => (liftM (loader.host.report message) :
        ExceptT LoaderFault (StateM σ) Unit)).run := by
  induction messages with
  | nil => exact moves_pure _
  | cons message messages ih => exact (hhost.report message).liftBind fun _ => ih

/-- Compiling adds no more than directories, if the compiler does not. -/
theorem moves_compile (hhost : loader.host.Atomic files)
    {implementation : Implementation (StateM σ)} (hcompiler : ∀ source options,
      Moves (MoreDirectories files) (implementation.compiler source options).run)
    (source : String) :
    Moves (MoreDirectories files) (loader.compile context implementation source).run := by
  rw [compile]
  refine (hcompiler _ _).liftBind fun answer => ?_
  split
  · exact moves_pure _
  · exact (moves_forM_report hhost _).moreDirectories.exceptBind fun _ _ _ _ => moves_pure _

/-- A run makes no more than directories before it leaves its output. -/
theorem moves_produce (hloader : loader.Confined files) (context : LoaderContext) (raw : String) :
    Moves (MoreDirectories files) (loader.produce context raw).run := by
  rw [produce]
  refine (moves_makeOutput hloader.host context).exceptBind fun _ _ _ _ => ?_
  refine (moves_stage (hloader.resolver _ _)).exceptBind fun _ implementation _ hresolved => ?_
  have hcompiler := hloader.compiler _ _ _ _ _ (run_stage_eq_ok_iff.1 hresolved)
  refine (moves_compile hloader.host hcompiler _).exceptBind fun _ _ _ _ => ?_
  exact (moves_stage (hloader.styles _ _)).exceptBind fun _ _ _ _ => moves_pure _

end Confinement

end Loader

end MiniProgram
