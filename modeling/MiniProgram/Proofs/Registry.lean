import Mathlib.Data.Nat.Basic
import MiniProgram.Proofs.Foremost
import MiniProgram.Registry

/-!
# What a registry answers

Read `resolve_history` first: after any history of registrations, asking for a name has one answer,
which `Answers` describes. Of the registrations that apply, the one of greatest priority counts, and
among equals the first one. All others may as well not have been made.

A registration applies if it has the name, and no scope or one whose components come first in the
root of the project. A scope that is only the start of a name in the root does not count.
-/

namespace MiniProgram.Registry

variable {m : Type → Type} {history before behind : List (Registration m)}
  {registration : Registration m} {name : String} {root : Path}

/-- `Applies registration name root` says that a registration is one of `name`, and that the root of
the project lies in its scope, if it has one. -/
def Applies (registration : Registration m) (name : String) (root : Path) : Prop :=
  registration.name = name ∧
    ∀ scope, registration.scope = some scope → scope.components <+: root.components

/-- `Answers history name root answer` says what a registry answers after a history. It is the
compiler that was registered with the greatest priority, and of those first, among the registrations
that apply. If none applies the package is not found. -/
inductive Answers (history : List (Registration m)) (name : String) (root : Path) :
    Except ResolveFault (Implementation m) → Prop where
  | found {before behind : List (Registration m)} {registration : Registration m} :
      history = before ++ registration :: behind →
      Applies registration name root →
      (∀ other ∈ before, Applies other name root → other.priority < registration.priority) →
      (∀ other ∈ behind, Applies other name root → other.priority ≤ registration.priority) →
      Answers history name root (.ok registration.implementation)
  | missing : (∀ other ∈ history, ¬ Applies other name root) →
      Answers history name root (.error (.packageNotFound name root))

/-- The registry after a history. -/
def afterAll (history : List (Registration m)) : Registry m :=
  history.foldl register []

/-- A registry is the history of its registrations. -/
theorem afterAll_eq (history : List (Registration m)) : afterAll history = history := by
  have hfoldl : ∀ registry : Registry m, history.foldl register registry = registry ++ history := by
    induction history with
    | nil => exact fun registry => (List.append_nil registry).symm
    | cons first rest ih =>
        intro registry
        rw [List.foldl_cons, ih, register, List.append_assoc, List.singleton_append]
  exact hfoldl []

/-- The test of a registration is what it takes to apply. -/
theorem applies_iff : applies registration name root = true ↔ Applies registration name root := by
  rw [applies, Applies, Bool.and_eq_true, beq_iff_eq]
  cases registration.scope with
  | none => simp
  | some scope => simp [Path.startsWith]

/-- The registrations that apply, in the order in which they were made. -/
def applicable (history : List (Registration m)) (name : String) (root : Path) :
    List (Registration m) :=
  history.filter fun registration => applies registration name root

/-- What applies of a longer history applies of its parts, in order. -/
theorem applicable_append (history later : List (Registration m)) (name : String) (root : Path) :
    applicable (history ++ later) name root =
      applicable history name root ++ applicable later name root :=
  List.filter_append _ _

/-- A first registration that applies is the first that does. -/
theorem applicable_cons_of_applies (h : Applies registration name root) :
    applicable (registration :: history) name root =
      registration :: applicable history name root :=
  List.filter_cons_of_pos (applies_iff.2 h)

/-- A first registration that does not apply does not count. -/
theorem applicable_cons_of_not (h : ¬ Applies registration name root) :
    applicable (registration :: history) name root = applicable history name root :=
  List.filter_cons_of_neg (mt applies_iff.1 h)

/-- None applies if no registration of the history does. -/
theorem applicable_eq_nil_iff :
    applicable history name root = [] ↔ ∀ other ∈ history, ¬ Applies other name root := by
  simp only [applicable, List.filter_eq_nil_iff, applies_iff]

/-- A registration is foremost among those that apply exactly if it counts in the history. -/
theorem foremost_applicable_iff :
    Foremost Registration.priority (applicable history name root) registration ↔
      ∃ before behind, history = before ++ registration :: behind ∧
        Applies registration name root ∧
        (∀ other ∈ before, Applies other name root → other.priority < registration.priority) ∧
        ∀ other ∈ behind, Applies other name root → other.priority ≤ registration.priority := by
  constructor
  · rintro ⟨before, behind, hsplit, hbefore, hbehind⟩
    obtain ⟨front, rest, rfl, rfl, hrest⟩ := List.filter_eq_append_iff.1 hsplit
    obtain ⟨skipped, tail, rfl, hskipped, happlies, rfl⟩ := List.filter_eq_cons_iff.1 hrest
    refine ⟨front ++ skipped, tail, by simp, applies_iff.1 happlies, ?_, ?_⟩
    · intro other hother hother'
      rcases List.mem_append.1 hother with hfront | hmem
      · exact hbefore other (List.mem_filter.2 ⟨hfront, applies_iff.2 hother'⟩)
      · exact absurd (applies_iff.2 hother') (hskipped other hmem)
    · exact fun other hother hother' =>
        hbehind other (List.mem_filter.2 ⟨hother, applies_iff.2 hother'⟩)
  · rintro ⟨before, behind, rfl, happlies, hbefore, hbehind⟩
    refine ⟨applicable before name root, applicable behind name root, ?_, ?_, ?_⟩
    · rw [applicable_append, applicable_cons_of_applies happlies]
    · intro other hother
      obtain ⟨hmem, hother⟩ := List.mem_filter.1 hother
      exact hbefore other hmem (applies_iff.1 hother)
    · intro other hother
      obtain ⟨hmem, hother⟩ := List.mem_filter.1 hother
      exact hbehind other hmem (applies_iff.1 hother)

/-- The registration that is chosen is the foremost one of those that apply, unless none does. -/
theorem choose_cases (history : List (Registration m)) (name : String) (root : Path) :
    applicable history name root = [] ∧ choose history name root = none ∨
      ∃ registration, choose history name root = some registration ∧
        Foremost Registration.priority (applicable history name root) registration :=
  foldl_foremost (fun _ => rfl) (fun _ _ hlt => if_pos hlt) (fun _ _ hle => if_neg (not_lt.2 hle)) _

/-- The answer after a history is unique. -/
theorem Answers.unique {answer other : Except ResolveFault (Implementation m)}
    (h : Answers history name root answer) (h' : Answers history name root other) :
    answer = other := by
  cases h with
  | found hsplit happlies hbefore hbehind =>
      have hforemost := foremost_applicable_iff.2 ⟨_, _, hsplit, happlies, hbefore, hbehind⟩
      cases h' with
      | found hsplit' happlies' hbefore' hbehind' =>
          rw [hforemost.unique
            (foremost_applicable_iff.2 ⟨_, _, hsplit', happlies', hbefore', hbehind'⟩)]
      | missing hnone => exact absurd happlies (hnone _ (by rw [hsplit]; simp))
  | missing hnone =>
      cases h' with
      | found hsplit' happlies' => exact absurd happlies' (hnone _ (by rw [hsplit']; simp))
      | missing => rfl

/-- What a registry answers after a history is one of the answers that the history calls for. -/
theorem exists_answer [Monad m] (history : List (Registration m)) (name : String) (root : Path) :
    ∃ answer, (resolve history name root).run = pure answer ∧ Answers history name root answer := by
  rw [resolve]
  rcases choose_cases history name root with ⟨hnil, hnone⟩ | ⟨registration, hsome, hforemost⟩
  · rw [hnone]
    exact ⟨_, rfl, .missing (applicable_eq_nil_iff.1 hnil)⟩
  · rw [hsome]
    obtain ⟨before, behind, hsplit, happlies, hbefore, hbehind⟩ :=
      foremost_applicable_iff.1 hforemost
    exact ⟨_, rfl, .found hsplit happlies hbefore hbehind⟩

/-- A registration that does not apply may as well not have been made. -/
theorem resolve_remove [Monad m] (h : ¬ Applies registration name root) :
    resolve (before ++ registration :: behind) name root =
      resolve (before ++ behind) name root := by
  have hsame : applicable (before ++ registration :: behind) name root =
      applicable (before ++ behind) name root := by
    rw [applicable_append, applicable_cons_of_not h, applicable_append]
  have hchoose : choose (before ++ registration :: behind) name root =
      choose (before ++ behind) name root := congrArg (List.foldl preferred none) hsame
  rw [resolve, resolve, hchoose]

/-- After any history of registrations there is one answer for a name and a project, and the
registry gives it. A registration that does not apply changes nothing, wherever it stands. -/
theorem resolve_history [Monad m] (history : List (Registration m)) (name : String) (root : Path) :
    ∃ answer, ((afterAll history).resolve name root).run = pure answer ∧
      (∀ other, Answers history name root other ↔ other = answer) ∧
      ∀ before registration behind, history = before ++ registration :: behind →
        ¬ Applies registration name root →
        (afterAll (before ++ behind)).resolve name root = (afterAll history).resolve name root := by
  rw [afterAll_eq]
  obtain ⟨answer, hrun, hanswer⟩ := exists_answer history name root
  refine ⟨answer, hrun, fun other => ⟨fun h => h.unique hanswer, fun h => h ▸ hanswer⟩, ?_⟩
  intro before registration behind hsplit hskipped
  rw [afterAll_eq, hsplit, resolve_remove hskipped]

section Tie

/-- A compiler that leaves the source as it is, with some version. -/
def plain (version : String) : Implementation Id where
  compiler source _ := pure ⟨source, none, [], []⟩
  baseOptions := []
  version := some version

/-- Two compilers of equal priority, and two of higher priority that do not apply to the project
`/project`: one has the scope `/pro`, and one has another name. -/
def tied : List (Registration Id) := [
  ⟨"jsx-compiler", 9, some ⟨"/pro"⟩, plain "scoped"⟩,
  ⟨"jsx-compiler", 5, none, plain "first"⟩,
  ⟨"other-compiler", 7, none, plain "other"⟩,
  ⟨"jsx-compiler", 5, some ⟨"/project/"⟩, plain "second"⟩]

/-- Of two compilers of equal priority the first one is found, and it would be found without the
compiler that has only the start of a name for its scope. -/
theorem resolve_history_tie :
    ((afterAll tied).resolve "jsx-compiler" ⟨"/project"⟩).run = pure (.ok (plain "first")) ∧
      Answers tied "jsx-compiler" ⟨"/project"⟩ (.ok (plain "first")) ∧
      (afterAll tied.tail).resolve "jsx-compiler" ⟨"/project"⟩ =
        (afterAll tied).resolve "jsx-compiler" ⟨"/project"⟩ := by
  obtain ⟨answer, hrun, hanswers, hremove⟩ :=
    resolve_history tied "jsx-compiler" ⟨"/project"⟩
  have hfirst : ((afterAll tied).resolve "jsx-compiler" ⟨"/project"⟩).run =
      pure (.ok (plain "first")) := rfl
  obtain rfl : answer = .ok (plain "first") := hrun.symm.trans hfirst
  have hscope : ¬ Applies (⟨"jsx-compiler", 9, some ⟨"/pro"⟩, plain "scoped"⟩ : Registration Id)
      "jsx-compiler" ⟨"/project"⟩ := mt applies_iff.2 (by decide +kernel)
  exact ⟨hfirst, (hanswers _).2 rfl, hremove [] _ tied.tail rfl hscope⟩

end Tie

end MiniProgram.Registry
