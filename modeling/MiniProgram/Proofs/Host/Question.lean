import MiniProgram.Proofs.Host.Action

/-!
# Questions to a host

Some actions only ask: `Asks view action answer` says that what an action answers is read off what
`view` shows of the state, such as its files, and that the action leaves it as it is. As with
`Moves`, this passes from the parts of an action to the whole, and the answer is put together in the
same way as the action. An action that asks about the whole state changes nothing (`Asks.run_eq`).

A host is `Faithful` if its questions are answered by its files. Machines are such hosts
(`Machine.faithful_host`).
-/

namespace MiniProgram

variable {σ τ ε α β : Type} {view : σ → τ}

/-- An action that answers what `answer` reads off a view of the state, which it does not change. -/
def Asks (view : σ → τ) (action : StateM σ α) (answer : τ → α) : Prop :=
  ∀ state, (action.run state).1 = answer (view state) ∧ view (action.run state).2 = view state

/-- A question about the whole state gives its answer and leaves the state as it is. -/
theorem Asks.run_eq {action : StateM σ α} {answer : σ → α} (h : Asks id action answer) (state : σ) :
    action.run state = (answer state, state) :=
  Prod.ext (h state).1 (h state).2

/-- A fixed answer asks nothing. -/
theorem asks_pure (a : α) : Asks view (pure a) fun _ => a :=
  fun _ => ⟨rfl, rfl⟩

/-- A question that follows on the answer of another one is one question. -/
theorem Asks.bind {x : StateM σ α} {f : α → StateM σ β} {answer : τ → α}
    {next : α → τ → β} (hx : Asks view x answer) (hf : ∀ a, Asks view (f a) (next a)) :
    Asks view (x >>= f) fun tree => next (answer tree) tree := by
  intro state
  obtain ⟨hanswer, hsame⟩ := hx state
  obtain ⟨hnext, hsame'⟩ := hf (x.run state).1 (x.run state).2
  refine ⟨?_, hsame'.trans hsame⟩
  calc ((x >>= f).run state).1
      = next (x.run state).1 (view (x.run state).2) := hnext
    _ = next (answer (view state)) (view state) := by rw [hanswer, hsame]

/-- A question that may fail, following on the answer of one that cannot, is one question. -/
theorem Asks.liftBind {x : StateM σ α} {f : α → ExceptT ε (StateM σ) β} {answer : τ → α}
    {next : α → τ → Except ε β} (hx : Asks view x answer)
    (hf : ∀ a, Asks view (f a).run (next a)) :
    Asks view ((x : ExceptT ε (StateM σ) α) >>= f).run fun tree => next (answer tree) tree :=
  hx.bind hf

/-- What follows an action may depend on its answer alone. -/
theorem Asks.liftBindMap {x : StateM σ α} {f : α → ExceptT ε (StateM σ) β} {answer : τ → α}
    (next : α → Except ε β) (hx : Asks view x answer)
    (hf : ∀ a, Asks view (f a).run fun _ => next a) :
    Asks view ((x : ExceptT ε (StateM σ) α) >>= f).run fun tree => next (answer tree) :=
  hx.liftBind hf

/-- Of an action that may fail, what follows counts only if it does not. -/
theorem Asks.exceptBind {x : ExceptT ε (StateM σ) α} {f : α → ExceptT ε (StateM σ) β}
    {answer : τ → Except ε α} {next : α → τ → Except ε β}
    (hx : Asks view x.run answer) (hf : ∀ a, Asks view (f a).run (next a)) :
    Asks view (x >>= f).run fun tree => answer tree >>= fun a => next a tree := by
  intro state
  have hx := hx state
  rcases h : x.run.run state with ⟨e | a, last⟩
  · obtain ⟨hanswer, hsame⟩ : .error e = answer (view state) ∧ view last = view state := by
      rwa [h] at hx
    rw [run_bind_of_error h]
    dsimp only
    rw [← hanswer]
    exact ⟨rfl, hsame⟩
  · obtain ⟨hanswer, hsame⟩ : .ok a = answer (view state) ∧ view last = view state := by
      rwa [h] at hx
    obtain ⟨hnext, hsame'⟩ := hf a last
    rw [run_bind_of_ok h]
    dsimp only
    rw [← hanswer, hnext, hsame', hsame]
    exact ⟨rfl, rfl⟩

/-- Questions that may fail, one for every item, are one question. -/
theorem Asks.exceptMapM {items : List α} {f : α → ExceptT ε (StateM σ) β}
    {answer : τ → α → Except ε β} (hf : ∀ a, Asks view (f a).run (answer · a)) :
    Asks view (items.mapM f).run fun tree => items.mapM (answer tree) := by
  induction items with
  | nil => exact asks_pure _
  | cons item items ih =>
      simp only [List.mapM_cons]
      exact (hf item).exceptBind fun _ => ih.exceptBind fun _ => asks_pure _

/-- Questions, one for every item, are one question. -/
theorem Asks.mapM {items : List α} {f : α → StateM σ β} {answer : τ → α → β}
    (hf : ∀ a, Asks view (f a) (answer · a)) :
    Asks view (items.mapM f) fun seen => items.map (answer seen) := by
  induction items with
  | nil => exact asks_pure _
  | cons item items ih =>
      rw [List.mapM_cons]
      exact (hf item).bind fun _ => ih.bind fun _ => asks_pure _

/-- A host whose questions are answered by its files. -/
structure Host.Faithful (host : Host (StateM σ)) (files : σ → FileTree) : Prop where
  isDirectory : ∀ path, Asks files (host.isDirectory path) fun tree => tree.isDirectory path
  readText : ∀ path, Asks files (host.readText path) fun tree => tree.readText path

/-- Machines answer what their files say. -/
theorem Machine.faithful_host (behaviour : Behaviour) :
    (Machine.host behaviour).Faithful Machine.files where
  isDirectory _ _ := ⟨rfl, rfl⟩
  readText _ _ := ⟨rfl, rfl⟩

end MiniProgram
