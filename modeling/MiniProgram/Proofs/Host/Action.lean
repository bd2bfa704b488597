import Mathlib.Order.Defs.Unbundled
import MiniProgram.Machine
import MiniProgram.Proofs.Files.Growth

/-!
# Actions on a state

What a stage of a run does to the state of its host is described by a relation between the states
before and after it. `Moves relation action` says that an action takes every state to a related one,
whatever its answer is. For a preorder this passes from the parts of an action to the whole, so a
sequence of stages needs one lemma for each stage.

A host is `Atomic` if a question changes no file, making directories only adds directories, and a
write either fails before it changes anything or completes. Nothing is said about why an operation
fails. Machines are such hosts (`Machine.atomic_host`).
-/

namespace MiniProgram

variable {σ ε α β : Type}

section Outcomes

variable {x : ExceptT ε (StateM σ) α} {f : α → ExceptT ε (StateM σ) β} {state next last : σ}
  {a : α} {b : β} {e : ε}

/-- A sequence whose first part succeeds goes on with its answer. -/
theorem run_bind_of_ok (h : x.run.run state = (.ok a, next)) :
    (x >>= f).run.run state = (f a).run.run next := by
  rw [ExceptT.run_bind, StateT.run_bind, h]
  rfl

/-- A sequence whose first part fails ends there. -/
theorem run_bind_of_error (h : x.run.run state = (.error e, next)) :
    (x >>= f).run.run state = (.error e, next) := by
  rw [ExceptT.run_bind, StateT.run_bind, h]
  rfl

/-- What follows on the answer of an action that cannot fail. -/
theorem run_lift_bind (x : StateM σ α) (f : α → ExceptT ε (StateM σ) β) (state : σ) :
    ((x : ExceptT ε (StateM σ) α) >>= f).run.run state =
      (f (x.run state).1).run.run (x.run state).2 := rfl

/-- A sequence succeeds if its first part does and what follows on its answer does. -/
theorem run_bind_eq_ok_iff :
    (x >>= f).run.run state = (.ok b, last) ↔
      ∃ a next, x.run.run state = (.ok a, next) ∧ (f a).run.run next = (.ok b, last) := by
  rcases h : x.run.run state with ⟨e | a, next⟩
  · rw [run_bind_of_error h]
    grind
  · rw [run_bind_of_ok h]
    grind

/-- A sequence fails if its first part does, or else what follows on its answer. -/
theorem run_bind_eq_error_iff :
    (x >>= f).run.run state = (.error e, last) ↔
      x.run.run state = (.error e, last) ∨
        ∃ a next, x.run.run state = (.ok a, next) ∧ (f a).run.run next = (.error e, last) := by
  rcases h : x.run.run state with ⟨e | a, next⟩
  · rw [run_bind_of_error h]
    grind
  · rw [run_bind_of_ok h]
    grind

end Outcomes

section Moving

/-- An action that takes every state to one that is related to it. -/
def Moves (relation : σ → σ → Prop) (action : StateM σ α) : Prop :=
  ∀ state, relation state (action.run state).2

variable {relation : σ → σ → Prop} [IsPreorder σ relation]

/-- A fixed answer leaves every state as it is. -/
theorem moves_pure (a : α) : Moves relation (pure a) :=
  fun state => refl_of relation state

/-- A sequence takes every state to a related one if both of its actions do. -/
theorem Moves.bind {x : StateM σ α} {f : α → StateM σ β} (hx : Moves relation x)
    (hf : ∀ a, Moves relation (f a)) : Moves relation (x >>= f) := by
  intro state
  rw [StateT.run_bind]
  exact trans_of relation (hx state) (hf _ _)

/-- Of an action that may fail, what follows counts only where it comes to that. -/
theorem Moves.exceptBind {x : ExceptT ε (StateM σ) α} {f : α → ExceptT ε (StateM σ) β}
    (hx : Moves relation x.run)
    (hf : ∀ state a next, x.run.run state = (.ok a, next) → Moves relation (f a).run) :
    Moves relation (x >>= f).run := by
  intro state
  rcases h : x.run.run state with ⟨e | a, next⟩
  · rw [run_bind_of_error h]
    simpa only [h] using hx state
  · rw [run_bind_of_ok h]
    have hnext : relation state next := by simpa only [h] using hx state
    exact trans_of relation hnext (hf state a next h next)

/-- What follows on an action that cannot fail may fail itself. -/
theorem Moves.liftBind {x : StateM σ α} {f : α → ExceptT ε (StateM σ) β} (hx : Moves relation x)
    (hf : ∀ a, Moves relation (f a).run) :
    Moves relation ((x : ExceptT ε (StateM σ) α) >>= f).run := by
  intro state
  rw [run_lift_bind]
  exact trans_of relation (hx state) (hf _ _)

/-- Actions that may fail, one for every item, take every state to a related one if each does. -/
theorem Moves.exceptMapM {items : List α} {f : α → ExceptT ε (StateM σ) β}
    (hf : ∀ a, Moves relation (f a).run) : Moves relation (items.mapM f).run := by
  induction items with
  | nil => exact moves_pure _
  | cons item items ih =>
      rw [List.mapM_cons]
      exact (hf item).exceptBind fun _ _ _ _ => ih.exceptBind fun _ _ _ _ => moves_pure _

/-- Actions, one for every item, take every state to a related one if each does. -/
theorem Moves.mapM {items : List α} {f : α → StateM σ β} (hf : ∀ a, Moves relation (f a)) :
    Moves relation (items.mapM f) := by
  induction items with
  | nil => exact moves_pure _
  | cons item items ih =>
      rw [List.mapM_cons]
      exact (hf item).bind fun _ => ih.bind fun _ => moves_pure _

end Moving

section Files

variable {files : σ → FileTree}

/-- States with the same files. -/
def SameFiles (files : σ → FileTree) (state next : σ) : Prop :=
  files next = files state

/-- States of which the second one may have more directories. -/
def MoreDirectories (files : σ → FileTree) (state next : σ) : Prop :=
  (files state).Grows [] (files next)

/-- Files that stay the same twice stay the same. -/
instance : IsPreorder σ (SameFiles files) where
  refl _ := rfl
  trans _ _ _ h h' := Eq.trans h' h

/-- Files that gain directories twice gain directories. -/
instance : IsPreorder σ (MoreDirectories files) where
  refl _ := .refl _ _
  trans _ _ _ h h' := h.trans h'

/-- An action that leaves the files as they are takes no directory away. -/
theorem Moves.moreDirectories {action : StateM σ α} (h : Moves (SameFiles files) action) :
    Moves (MoreDirectories files) action := by
  intro state
  have hsame : files (action.run state).2 = files state := h state
  rw [MoreDirectories, hsame]
  exact .refl _ _

/-- A host whose operations on files are all or nothing, where `files` are the files of a state.
Questions, launches and reports change no file. Making directories changes nothing else, even if it
fails. Writing fails before it changes anything, or it completes. -/
structure Host.Atomic (host : Host (StateM σ)) (files : σ → FileTree) : Prop where
  isDirectory : ∀ path, Moves (SameFiles files) (host.isDirectory path)
  isFile : ∀ path, Moves (SameFiles files) (host.isFile path)
  readText : ∀ path, Moves (SameFiles files) (host.readText path)
  names : ∀ path, Moves (SameFiles files) (host.names path)
  launch : ∀ program arguments input,
    Moves (SameFiles files) (host.launch program arguments input)
  report : ∀ message, Moves (SameFiles files) (host.report message)
  createDirectories : ∀ path, Moves (MoreDirectories files) (host.createDirectories path)
  writeText_error : ∀ path text state fault next,
    (host.writeText path text).run state = (.error fault, next) → files next = files state
  writeText_ok : ∀ path text state next, (host.writeText path text).run state = (.ok (), next) →
    (files state).write path text.toUTF8 = .ok (files next)

end Files

namespace Machine

variable {files next : FileTree} {path : Path} {text : String} {fault : FileFault}

/-- Writing a text succeeds if its bytes can be written. -/
theorem writeText_eq_ok_iff :
    writeText path text files = (.ok (), next) ↔ files.write path text.toUTF8 = .ok next := by
  grind [writeText]

/-- A write that fails changes no file. -/
theorem files_of_writeText_error (h : writeText path text files = (.error fault, next)) :
    next = files := by
  grind [writeText]

/-- A program that is launched changes no file. -/
theorem files_launch (behaviour : Behaviour) (program : Path) (arguments : List String)
    (input : String) (machine : Machine) :
    ((launch behaviour program arguments input).run machine).2.files = machine.files := by
  show (launch behaviour program arguments input machine).2.files = machine.files
  grind [launch]

/-- Machines are hosts whose operations are all or nothing. -/
theorem atomic_host (behaviour : Behaviour) : (host behaviour).Atomic Machine.files where
  isDirectory _ _ := rfl
  isFile _ _ := rfl
  readText _ _ := rfl
  names _ _ := rfl
  launch := files_launch behaviour
  report _ _ := rfl
  createDirectories path machine := FileTree.grows_createDirectories machine.files path
  writeText_error path text machine fault next h := by
    obtain ⟨hfault, hnext⟩ := Prod.mk.inj h
    rw [← hnext]
    exact files_of_writeText_error (Prod.ext hfault rfl)
  writeText_ok path text machine next h := by
    obtain ⟨hok, hnext⟩ := Prod.mk.inj h
    rw [← hnext]
    exact writeText_eq_ok_iff.1 (Prod.ext hok rfl)

end Machine

end MiniProgram
