import MiniProgram.Proofs.Host.Effect
import MiniProgram.Proofs.Loader.Stylesheet

/-!
# What runs do to file trees

A loader is `Blind` if neither its resolver nor a compiler looks at the files or changes them, so
their answers are always the same. With the processor and the writer that work on files, a run of
such a loader acts on file trees as `runIn` does (`acts_run`): what it answers and what it leaves
depend on the file tree that it finds and on nothing else.
-/

namespace MiniProgram.Loader

variable {σ : Type} {files : σ → FileTree} {loader : Loader (StateM σ)}

/-- Makes the output directory of a run in a file tree. -/
def folderIn (context : LoaderContext) (tree : FileTree) : Except LoaderFault Unit × FileTree :=
  match tree.createDirectories context.options.outputPath with
  | (.error fault, made) => (.error (.outputDirectory context.options.outputPath fault), made)
  | (.ok (), made) => (.ok (), made)

/-- Making the output directory makes its directories, and their fault is one of the run. -/
theorem folderIn_eq (context : LoaderContext) (tree : FileTree) :
    folderIn context tree =
      ((tree.createDirectories context.options.outputPath).1.mapError
          (.outputDirectory context.options.outputPath),
        (tree.createDirectories context.options.outputPath).2) := by
  unfold folderIn
  rcases tree.createDirectories context.options.outputPath with ⟨fault | _, made⟩ <;> rfl

/-- The output directory is made exactly if its directories are. -/
theorem folderIn_eq_ok_iff {context : LoaderContext} {tree next : FileTree} :
    folderIn context tree = (.ok (), next) ↔
      tree.createDirectories context.options.outputPath = (.ok (), next) := by
  unfold folderIn
  rcases tree.createDirectories context.options.outputPath with ⟨fault | _, made⟩ <;> simp

/-- Leaves what a run has produced in a file tree. -/
def finishIn (context : LoaderContext) (raw : String) (product : Compilation × StyleOutput)
    (tree : FileTree) : Except LoaderFault String × FileTree :=
  match Output.outputIn (outputOptions context)
    (Output.codeText (artifacts product.1 product.2) raw (outputOptions context))
    (Output.styleText (artifacts product.1 product.2) (outputOptions context)) tree with
  | (.error fault, left) => (.error (.output fault), left)
  | (.ok (), left) => (.ok (Dependency.moduleText context.resource product.1.dependencies), left)

/-- Finishing leaves the output, and answers with the module that replaces the app if that succeeds.
-/
theorem finishIn_eq (context : LoaderContext) (raw : String) (product : Compilation × StyleOutput)
    (tree : FileTree) :
    finishIn context raw product tree =
      let output := Output.outputIn (outputOptions context)
        (Output.codeText (artifacts product.1 product.2) raw (outputOptions context))
        (Output.styleText (artifacts product.1 product.2) (outputOptions context)) tree
      ((output.1.mapError .output).map fun _ =>
        Dependency.moduleText context.resource product.1.dependencies, output.2) := by
  unfold finishIn
  rcases Output.outputIn _ _ _ tree with ⟨fault | _, left⟩ <;> rfl

/-- What a run does to a file tree if `answer` is what its compiler makes of the source. -/
def runIn (context : LoaderContext) (raw : String) (answer : Except LoaderFault Compilation)
    (tree : FileTree) : Except LoaderFault String × FileTree :=
  match folderIn context tree with
  | (.error fault, made) => (.error fault, made)
  | (.ok (), made) =>
    match answer with
    | .error fault => (.error fault, made)
    | .ok compilation =>
      match Style.processed made compilation.styleFiles context.entry with
      | .error fault => (.error (.style fault), made)
      | .ok style => finishIn context raw (compilation, style) made

/-- Finds the compiler and lets it have the source without dead code. -/
def interpret {m : Type → Type} [Monad m] (loader : Loader m) (context : LoaderContext)
    (raw : String) : ExceptT LoaderFault m Compilation := do
  let implementation ← stage .resolve (loader.resolver loader.config.package context.root)
  loader.compile context implementation (loader.eliminate raw)

/-- A loader whose resolver and compilers always give the same answers and change no file. -/
structure Blind (loader : Loader (StateM σ)) (files : σ → FileTree) : Prop where
  resolver : ∀ name root, ∃ answer, Asks files (loader.resolver name root).run fun _ => answer
  compiler : ∀ name root implementation,
    Asks files (loader.resolver name root).run (fun _ => .ok implementation) →
    ∀ source options, ∃ answer,
      Asks files (implementation.compiler source options).run fun _ => answer

/-- A loader that works on the files of a host, and whose resolver and compilers do not. -/
structure Standard (loader : Loader (StateM σ)) (files : σ → FileTree) : Prop
    extends loader.Blind files where
  host : loader.host.Exact files
  styles : loader.styles = Style.process loader.host
  writer : loader.writer = Output.write loader.host

section Answers

variable {ε α β : Type} {context : LoaderContext} {raw : String}

/-- A stage asks what its action does, and its fault is one of the run. -/
theorem asks_stage {fault : ε → LoaderFault} {action : ExceptT ε (StateM σ) α}
    {answer : FileTree → Except ε α} (h : Asks files action.run answer) :
    Asks files (stage fault action).run fun tree => (answer tree).mapError fault := by
  refine h.liftBindMap (Except.mapError fault) fun found => ?_
  cases found <;> exact asks_pure _

/-- What follows an action that always succeeds with the same result. -/
theorem asks_bind_of_ok {x : ExceptT ε (StateM σ) α} {f : α → ExceptT ε (StateM σ) β} {a : α}
    {answer : FileTree → Except ε β} (hx : Asks files x.run fun _ => .ok a)
    (hf : Asks files (f a).run answer) : Asks files (x >>= f).run answer := by
  intro state
  obtain ⟨hok, hsame⟩ := hx state
  obtain ⟨hanswer, hsame'⟩ := hf (x.run.run state).2
  rw [run_bind_of_ok (Prod.ext hok rfl), ← hsame]
  exact ⟨hanswer, hsame'⟩

/-- What follows an action that always fails is not reached. -/
theorem asks_bind_of_error {x : ExceptT ε (StateM σ) α} {f : α → ExceptT ε (StateM σ) β} {e : ε}
    (hx : Asks files x.run fun _ => .error e) : Asks files (x >>= f).run fun _ => .error e := by
  intro state
  obtain ⟨herror, hsame⟩ := hx state
  rw [run_bind_of_error (Prod.ext herror rfl)]
  exact ⟨rfl, hsame⟩

/-- Reporting messages changes no file. -/
theorem asks_forM_report (hhost : loader.host.Exact files) (messages : List String) :
    Asks files (messages.forM fun message =>
      (loader.host.report message : ExceptT LoaderFault (StateM σ) Unit)).run fun _ => .ok () := by
  induction messages with
  | nil => exact asks_pure _
  | cons message messages ih =>
      have hreport : Asks files (loader.host.report message) fun _ => () :=
        fun state => ⟨rfl, hhost.report message state⟩
      exact hreport.liftBind fun _ => ih

/-- Compiling answers as the compiler does, with a fault of the run for an error. -/
theorem asks_compile (hhost : loader.host.Exact files)
    {implementation : Implementation (StateM σ)} {source : String}
    {answer : FileTree → Except CompileError Compilation}
    (h : Asks files (implementation.compiler source
      (CompilerOptions.merge implementation.baseOptions (runOptions context))).run answer) :
    Asks files (loader.compile context implementation source).run fun tree =>
      (answer tree).mapError (compileFault loader.config.debug context.resource) := by
  refine h.liftBindMap
    (Except.mapError (compileFault loader.config.debug context.resource)) fun found => ?_
  cases found with
  | ok compilation => exact asks_pure _
  | error error => exact asks_bind_of_ok (asks_forM_report hhost _) (asks_pure _)

/-- What a blind loader makes of a source is always the same. -/
theorem Standard.asks_interpret (hloader : loader.Standard files) (context : LoaderContext)
    (raw : String) : ∃ answer, Asks files (loader.interpret context raw).run fun _ => answer := by
  obtain ⟨found, hfound⟩ := hloader.resolver loader.config.package context.root
  cases found with
  | error fault => exact ⟨_, asks_bind_of_error (asks_stage hfound)⟩
  | ok implementation =>
      obtain ⟨answer, hanswer⟩ := hloader.compiler _ _ _ hfound (loader.eliminate raw)
        (CompilerOptions.merge implementation.baseOptions (runOptions context))
      exact ⟨_, asks_bind_of_ok (asks_stage hfound) (asks_compile hloader.host hanswer)⟩

end Answers

section Effects

variable {context : LoaderContext} {raw : String} {answer : Except LoaderFault Compilation}

/-- Translating makes the output directory and then interprets the source. -/
theorem translate_eq (loader : Loader (StateM σ)) (context : LoaderContext) (raw : String) :
    loader.translate context raw = loader.makeOutput context >>= fun _ =>
      loader.interpret context raw := rfl

/-- A run makes its directory, compiles, processes the stylesheets and leaves its output. -/
theorem run_eq_interpret (loader : Loader (StateM σ)) (context : LoaderContext) (raw : String) :
    loader.run context raw = loader.makeOutput context >>= fun _ =>
      loader.interpret context raw >>= fun compilation =>
        stage .style (loader.styles compilation.styleFiles context.entry) >>= fun style =>
          loader.finish context raw (compilation, style) := by
  simp only [run_eq, produce_eq, translate_eq, stylize, bind_assoc, pure_bind]

/-- Making the output directory does to the files what it does to a file tree. -/
theorem acts_makeOutput (hhost : loader.host.Exact files) (context : LoaderContext) :
    Acts files (loader.makeOutput context).run (folderIn context) := by
  intro state
  rw [makeOutput, run_lift_bind, folderIn]
  rcases hmade : (loader.host.createDirectories context.options.outputPath).run state
    with ⟨fault | _, made⟩ <;>
    rw [(hhost.createDirectories _).of_run hmade] <;> rfl

/-- Finishing a run does to the files what it does to a file tree. -/
theorem acts_finish (hloader : loader.Standard files) (context : LoaderContext) (raw : String)
    (product : Compilation × StyleOutput) :
    Acts files (loader.finish context raw product).run (finishIn context raw product) := by
  intro state
  rw [finishIn]
  rcases hfinish : (loader.finish context raw product).run.run state with ⟨result, last⟩
  have hacts := Output.acts_write hloader.host (artifacts product.1 product.2) raw
    (outputOptions context)
  rw [← hloader.writer] at hacts
  rcases finish_cases hfinish with ⟨cause, rfl, hwriter⟩ | ⟨rfl, hwriter⟩ <;>
    rw [hacts.of_run hwriter]

/-- What a run of a loader does to file trees is known once its compiler's answer is. -/
theorem acts_run (hloader : loader.Standard files)
    (hanswer : Asks files (loader.interpret context raw).run fun _ => answer) :
    Acts files (loader.run context raw).run (runIn context raw answer) := by
  intro state
  rw [run_eq_interpret, runIn]
  rcases hmade : (loader.makeOutput context).run.run state with ⟨fault | _, made⟩
  · rw [(acts_makeOutput hloader.host context).of_run hmade, run_bind_of_error hmade]
  rw [(acts_makeOutput hloader.host context).of_run hmade, run_bind_of_ok hmade]
  rcases hcompiled : (loader.interpret context raw).run.run made with
    ⟨fault | compilation, compiled⟩
  · obtain ⟨rfl, hsame⟩ := Prod.mk.inj (hanswer.acts.of_run hcompiled)
    rw [run_bind_of_error hcompiled, hsame]
  obtain ⟨rfl, hsame⟩ := Prod.mk.inj (hanswer.acts.of_run hcompiled)
  have hprocess := Style.asks_process hloader.host.toFaithful compilation.styleFiles context.entry
  rw [← hloader.styles] at hprocess
  rw [run_bind_of_ok hcompiled, hsame]
  rcases hstyled : (loader.styles compilation.styleFiles context.entry).run.run compiled
    with ⟨fault | style, styled⟩ <;>
    obtain ⟨hstyle, hsame⟩ := Prod.mk.inj (hprocess.acts.of_run hstyled) <;>
    simp only [hstyle]
  · rw [run_bind_of_error (run_stage_of_error hstyled), hsame]
  · rw [run_bind_of_ok (run_stage_of_ok hstyled), hsame]
    exact acts_finish hloader context raw _ styled

/-- What is compiled in a run, and on which files, is known from its answer and its directory. -/
theorem exists_of_translate (hloader : loader.Standard files)
    (hanswer : Asks files (loader.interpret context raw).run fun _ => answer) {state : σ}
    {tree : FileTree}
    (h : (files state).createDirectories context.options.outputPath = (.ok (), tree)) :
    ∃ compiled, (loader.translate context raw).run.run state = (answer, compiled) ∧
      files compiled = tree := by
  have hfolder : folderIn context (files state) = (.ok (), tree) := by
    rw [folderIn, h]
  obtain ⟨made, hmade, rfl⟩ := (acts_makeOutput hloader.host context).exists_run hfolder
  obtain ⟨hanswer, hsame⟩ := hanswer made
  rw [translate_eq, run_bind_of_ok hmade]
  exact ⟨_, Prod.ext hanswer rfl, hsame⟩

end Effects

section Copying

/-- A compiler that leaves every source as it is and refers to some stylesheets. -/
def copier (sheets : List Path) : Implementation (StateM Machine) where
  compiler source _ := pure ⟨source, none, sheets, []⟩
  baseOptions := []
  version := none

/-- The loader with that compiler, on a machine where no program can be launched. -/
def copying (sheets : List Path) : Loader (StateM Machine) :=
  onFiles (Machine.host fun _ _ _ => .error .notFound) (fun _ _ => pure (copier sheets))
    ⟨false, compilerPackage⟩

/-- The loader that copies sources is a standard one. -/
theorem standard_copying (sheets : List Path) : (copying sheets).Standard Machine.files where
  resolver _ _ := ⟨_, asks_pure _⟩
  compiler _ _ _ h _ _ := by
    obtain rfl := Except.ok.inj (h ⟨⟨[], []⟩, []⟩).1
    exact ⟨_, asks_pure _⟩
  host := Machine.exact_host _
  styles := rfl
  writer := rfl

/-- Every source is compiled to itself without dead code. -/
theorem asks_copying (sheets : List Path) (context : LoaderContext) (raw : String) :
    Asks Machine.files ((copying sheets).interpret context raw).run
      fun _ => .ok ⟨(copying sheets).eliminate raw, none, sheets, []⟩ := by
  refine asks_bind_of_ok (asks_stage (asks_pure _)) ?_
  have hcopied : Asks Machine.files ((copier sheets).compiler ((copying sheets).eliminate raw)
      (CompilerOptions.merge (copier sheets).baseOptions (runOptions context))).run
        fun _ => .ok ⟨(copying sheets).eliminate raw, none, sheets, []⟩ := asks_pure _
  exact asks_compile (standard_copying sheets).host hcopied

/-- What is compiled by such a loader refers to those stylesheets. -/
theorem styleFiles_of_translate {sheets : List Path} {context : LoaderContext} {raw : String}
    {state compiled : Machine} {compilation : Compilation}
    (h : ((copying sheets).translate context raw).run.run state = (.ok compilation, compiled)) :
    compilation.styleFiles = sheets := by
  rw [translate_eq, run_bind_eq_ok_iff] at h
  obtain ⟨_, made, -, hcompiled⟩ := h
  obtain ⟨hok, -⟩ := Prod.mk.inj ((asks_copying sheets context raw).acts.of_run hcompiled)
  rw [← Except.ok.inj hok]

end Copying

end MiniProgram.Loader
