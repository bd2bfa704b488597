import MiniProgram.Proofs.Host.Question
import MiniProgram.Proofs.Outcome
import MiniProgram.Style.Processor

/-!
# What style processing reads

Processing stylesheets on a faithful host only asks: its answer is `processed`, which depends on the
file tree alone (`asks_process`). It succeeds exactly if every stylesheet can be read, and the style
is then made of their texts, in the order in which they are listed (`processed_eq_ok_iff`).
-/

namespace MiniProgram.Style

variable {σ : Type} {files : σ → FileTree} {host : Host (StateM σ)} {tree : FileTree}

/-- The directory that stylesheets are looked up from in a file tree. -/
def baseIn (tree : FileTree) (entry : Path) : Path :=
  if tree.isDirectory entry then entry else entry.parent?.getD ⟨""⟩

/-- The stylesheet at a path, given what reading it answers. -/
def sheetOf (path : Path) : Except FileFault String → Except StyleFault Sheet
  | .error fault => .error ⟨path, fault.message⟩
  | .ok text => .ok ⟨path, text⟩

/-- A stylesheet of a file tree, or why it cannot be read. -/
def sheetIn (tree : FileTree) (base file : Path) : Except StyleFault Sheet :=
  sheetOf (base.join file) (tree.readText (base.join file))

/-- What the stylesheets of a file tree make up, or why one of them cannot be read. -/
def processed (tree : FileTree) (sheets : List Path) (entry : Path) :
    Except StyleFault StyleOutput := do
  let found ← sheets.mapM (sheetIn tree (baseIn tree entry))
  return join (baseIn tree entry) found

/-- `Reads tree base file sheet` says that a stylesheet can be read, where it stands and what it
says. -/
def Reads (tree : FileTree) (base file : Path) (sheet : Sheet) : Prop :=
  sheet.path = base.join file ∧ tree.readText (base.join file) = .ok sheet.text

/-- `ReadsAll tree entry files sheets` says that all stylesheets of an app can be read, and what
they are, in the same order. -/
def ReadsAll (tree : FileTree) (entry : Path) : List Path → List Sheet → Prop :=
  List.Forall₂ (Reads tree (baseIn tree entry))

/-- The directory that stylesheets are looked up from is read off the files. -/
theorem asks_base (hhost : host.Faithful files) (entry : Path) :
    Asks files (base host entry) fun tree => baseIn tree entry := by
  have hanswer : ∀ found : Bool,
      Asks files (if found then return entry else return entry.parent?.getD ⟨""⟩ : StateM σ Path)
        fun _ => if found then entry else entry.parent?.getD ⟨""⟩ := by
    intro found
    cases found <;> exact asks_pure _
  exact (hhost.isDirectory entry).bind hanswer

/-- A stylesheet is read off the files. -/
theorem asks_readSheet (hhost : host.Faithful files) (start file : Path) :
    Asks files (readSheet host start file).run fun tree => sheetIn tree start file := by
  have hanswer : ∀ answer, Asks files (match answer with
      | .error fault => throw ⟨start.join file, fault.message⟩
      | .ok text => return ⟨start.join file, text⟩ : ExceptT StyleFault (StateM σ) Sheet).run
        fun _ => sheetOf (start.join file) answer := by
    intro answer
    cases answer <;> exact asks_pure _
  exact (hhost.readText (start.join file)).liftBind hanswer

/-- What processing answers is read off the files. -/
theorem asks_process (hhost : host.Faithful files) (sheets : List Path) (entry : Path) :
    Asks files (process host sheets entry).run fun tree => processed tree sheets entry := by
  have hsheets : ∀ start, Asks files (do
      let found ← sheets.mapM (readSheet host start)
      return join start found : ExceptT StyleFault (StateM σ) StyleOutput).run fun tree => do
        let found ← sheets.mapM (sheetIn tree start)
        return join start found :=
    fun start => (Asks.exceptMapM (asks_readSheet hhost start)).exceptBind fun _ => asks_pure _
  exact (asks_base hhost entry).liftBind hsheets

/-- A stylesheet is read exactly if its file can be read and holds its text. -/
theorem sheetIn_eq_ok_iff {start file : Path} {sheet : Sheet} :
    sheetIn tree start file = .ok sheet ↔ Reads tree start file sheet := by
  obtain ⟨path, text⟩ := sheet
  rw [sheetIn, Reads]
  cases tree.readText (start.join file) with
  | error fault => simp [sheetOf]
  | ok found => simp [sheetOf, eq_comm]

/-- Processing succeeds exactly if all stylesheets can be read, and then joins them. -/
theorem processed_eq_ok_iff {sheets : List Path} {entry : Path} {output : StyleOutput} :
    processed tree sheets entry = .ok output ↔
      ∃ found, ReadsAll tree entry sheets found ∧ output = join (baseIn tree entry) found := by
  simp only [processed, except_bind_eq_ok_iff, mapM_eq_ok_iff, sheetIn_eq_ok_iff, ReadsAll]
  refine exists_congr fun found => and_congr_right fun _ => ?_
  exact ⟨fun h => (Except.ok.inj h).symm, fun h => congrArg Except.ok h.symm⟩

end MiniProgram.Style
