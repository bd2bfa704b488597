import MiniProgram.Output
import MiniProgram.Proofs.Host.Question

/-!
# What actions do to file trees

`Acts view action change` says that an action does to the whole state what `change` does to what
`view` shows of it: both give the same answer and leave the same. On a host that is `Exact` for its
files, writing the output acts as `Output.outputIn`, a function on file trees.
-/

namespace MiniProgram

variable {σ τ ε α : Type} {view : σ → τ} {files : σ → FileTree} {host : Host (StateM σ)}

section Acting

/-- An action whose answer and whose effect on what `view` shows are those of `change`. -/
def Acts (view : σ → τ) (action : StateM σ α) (change : τ → α × τ) : Prop :=
  ∀ state, change (view state) = ((action.run state).1, view (action.run state).2)

variable {action : StateM σ α} {change : τ → α × τ} {state next : σ} {a : α}

/-- What an action did is what `change` does to what was shown. -/
theorem Acts.of_run (h : Acts view action change) (hrun : action.run state = (a, next)) :
    change (view state) = (a, view next) := by
  rw [h state, hrun]

/-- What `change` does to what is shown, the action does. -/
theorem Acts.exists_run {seen : τ} (h : Acts view action change)
    (hchange : change (view state) = (a, seen)) :
    ∃ next, action.run state = (a, next) ∧ view next = seen := by
  obtain ⟨ha, hseen⟩ := Prod.mk.inj ((h state).symm.trans hchange)
  exact ⟨_, Prod.ext ha rfl, hseen⟩

/-- An action that only asks leaves what is shown as it is. -/
theorem Asks.acts {answer : τ → α} (h : Asks view action answer) :
    Acts view action fun seen => (answer seen, seen) := by
  intro state
  obtain ⟨hanswer, hsame⟩ := h state
  rw [hanswer, hsame]

end Acting

/-- A host that does to its files what can be done to a file tree. Reports change no file. -/
structure Host.Exact (host : Host (StateM σ)) (files : σ → FileTree) : Prop
    extends host.Faithful files where
  createDirectories : ∀ path,
    Acts files (host.createDirectories path) fun tree => tree.createDirectories path
  writeText : ∀ path text, Acts files (host.writeText path text) (Machine.writeText path text)
  report : ∀ message, Moves (SameFiles files) (host.report message)

/-- A machine does to its files what can be done to a file tree. -/
theorem Machine.exact_host (behaviour : Behaviour) :
    (Machine.host behaviour).Exact Machine.files where
  toFaithful := faithful_host behaviour
  createDirectories _ _ := rfl
  writeText _ _ _ := rfl
  report _ _ := rfl

namespace Output

/-- Makes the directory of a file in a file tree. -/
def parentIn (path : Path) (tree : FileTree) : Except FileFault Unit × FileTree :=
  match path.parent? with
  | some parent => tree.createDirectories parent
  | none => (.ok (), tree)

/-- Writes a file of a file tree, in a directory that is made if it is missing. -/
def fileIn (path : Path) (text : String) (tree : FileTree) : Except OutputFault Unit × FileTree :=
  match parentIn path tree with
  | (.error fault, made) => (.error ⟨path, fault⟩, made)
  | (.ok (), made) =>
    match made.write path text.toUTF8 with
    | .error fault => (.error ⟨path, fault⟩, made)
    | .ok written => (.ok (), written)

/-- Leaves code and style in files of a file tree. -/
def outputIn (options : OutputOptions) (code style : String) (tree : FileTree) :
    Except OutputFault Unit × FileTree :=
  match fileIn options.codePath code tree with
  | (.error fault, left) => (.error fault, left)
  | (.ok (), left) => fileIn options.stylePath style left

/-- Making the directory of a file does to the files what it does to a file tree. -/
theorem acts_makeParent (hhost : host.Exact files) (path : Path) :
    Acts files (makeParent host path) (parentIn path) := by
  intro state
  rw [makeParent, parentIn]
  cases path.parent? with
  | none => rfl
  | some parent => exact hhost.createDirectories parent state

/-- Writing a file with its directory does to the files what it does to a file tree. -/
theorem acts_writeFile (hhost : host.Exact files) (path : Path) (text : String) :
    Acts files (writeFile host path text).run (fileIn path text) := by
  intro state
  rw [writeFile, run_lift_bind, fileIn]
  rcases hmade : (makeParent host path).run state with ⟨fault | _, made⟩
  · rw [(acts_makeParent hhost path).of_run hmade]
    rfl
  · rw [(acts_makeParent hhost path).of_run hmade]
    simp only [run_lift_bind]
    rcases hwritten : (host.writeText path text).run made with ⟨result, written⟩
    have hwrite := (hhost.writeText path text).of_run hwritten
    rw [Machine.writeText] at hwrite
    cases heq : (files made).write path text.toUTF8 with
    | error fault =>
        obtain ⟨rfl, hsame⟩ := Prod.mk.inj (heq ▸ hwrite)
        rw [hsame]
        rfl
    | ok last =>
        obtain ⟨rfl, rfl⟩ := Prod.mk.inj (heq ▸ hwrite)
        rfl

/-- Writing the output acts on file trees. -/
theorem acts_write (hhost : host.Exact files) (artifacts : Artifacts) (raw : String)
    (options : OutputOptions) :
    Acts files (write host artifacts raw options).run
      (outputIn options (codeText artifacts raw options) (styleText artifacts options)) := by
  intro state
  rw [write, outputIn]
  rcases hcode : (writeFile host options.codePath (codeText artifacts raw options)).run.run state
    with ⟨fault | _, left⟩
  · rw [(acts_writeFile hhost _ _).of_run hcode, run_bind_of_error hcode]
  · rw [(acts_writeFile hhost _ _).of_run hcode, run_bind_of_ok hcode]
    exact acts_writeFile hhost _ _ left

end Output

end MiniProgram
