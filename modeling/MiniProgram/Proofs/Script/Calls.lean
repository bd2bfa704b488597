import MiniProgram.Proofs.Script.Statement

/-!
# The calls that a script makes

`calls script outcomes` lists the calls that a script makes, those of its conditions included, when
the conditions come out as `outcomes` says, one outcome for each call of a condition. A script that
asks for one more outcome stops at that call.

Two statements are the same (`Same`) when they make the same calls in front of every rest. The
congruence lemmas say that a part of a statement may be exchanged for one that is the same.
-/

namespace MiniProgram.Script

mutual

/-- The number of the parts of a statement. -/
def Statement.weight : Statement → Nat
  | .call _ => 1
  | .block body => weight body + 1
  | .branch _ yes => yes.weight + 1
  | .choice _ yes no => yes.weight + no.weight + 1
  | .loop _ body => body.weight + 1
  | .label _ body => body.weight + 1

/-- The number of the parts of a script. -/
def weight : List Statement → Nat
  | [] => 0
  | statement :: rest => statement.weight + weight rest

end

/-- The weight of two scripts is the sum of their weights. -/
theorem weight_append (script rest : List Statement) :
    weight (script ++ rest) = weight script + weight rest := by
  induction script with
  | nil => simp [weight]
  | cons statement script ih => simp only [List.cons_append, weight, ih]; omega

/-- `calls script outcomes` lists the calls of a script whose conditions come out as `outcomes`
says. -/
def calls : List Statement → List Bool → List (List Char)
  | [], _ => []
  | .call name :: rest, outcomes => name :: calls rest outcomes
  | .block body :: rest, outcomes => calls (body ++ rest) outcomes
  | .branch (.constant true) yes :: rest, outcomes => calls (yes :: rest) outcomes
  | .branch (.constant false) _ :: rest, outcomes => calls rest outcomes
  | .branch (.call name) _ :: _, [] => [name]
  | .branch (.call name) yes :: rest, true :: outcomes => name :: calls (yes :: rest) outcomes
  | .branch (.call name) _ :: rest, false :: outcomes => name :: calls rest outcomes
  | .choice (.constant true) yes _ :: rest, outcomes => calls (yes :: rest) outcomes
  | .choice (.constant false) _ no :: rest, outcomes => calls (no :: rest) outcomes
  | .choice (.call name) _ _ :: _, [] => [name]
  | .choice (.call name) yes _ :: rest, true :: outcomes => name :: calls (yes :: rest) outcomes
  | .choice (.call name) _ no :: rest, false :: outcomes => name :: calls (no :: rest) outcomes
  | .loop name _ :: _, [] => [name]
  | .loop name body :: rest, true :: outcomes =>
      name :: calls (body :: .loop name body :: rest) outcomes
  | .loop name _ :: rest, false :: outcomes => name :: calls rest outcomes
  | .label _ body :: rest, outcomes => calls (body :: rest) outcomes
termination_by script outcomes => (outcomes.length, weight script)
decreasing_by
  all_goals simp only [weight, weight_append, Statement.weight, List.length_cons]
  all_goals first
    | exact Prod.Lex.left _ _ (by omega)
    | exact Prod.Lex.right _ (by omega)

/-- The calls of a script depend on what follows it only through the calls that this makes with the
outcomes that are left. -/
theorem calls_append_congr {rest other : List Statement} (script : List Statement)
    (outcomes : List Bool)
    (h : ∀ later : List Bool, later.length ≤ outcomes.length →
      calls rest later = calls other later) :
    calls (script ++ rest) outcomes = calls (script ++ other) outcomes := by
  fun_induction calls script outcomes with
  | case1 outcomes => exact h outcomes (Nat.le_refl _)
  | case3 body script outcomes ih =>
      simpa only [List.cons_append, calls, List.append_assoc] using ih h
  | case6 | case11 | case14 => simp only [List.cons_append, calls]
  | case7 name yes script outcomes ih | case8 name yes script outcomes ih
  | case12 name yes no script outcomes ih | case13 name yes no script outcomes ih
  | case15 name body script outcomes ih | case16 name body script outcomes ih =>
      have hlater := ih fun later hle => h later (Nat.le_succ_of_le hle)
      simpa only [List.cons_append, calls, List.cons.injEq, true_and] using hlater
  | case2 name script outcomes ih => simp only [List.cons_append, calls, ih h]
  | case4 yes script outcomes ih | case5 yes script outcomes ih
  | case9 yes no script outcomes ih | case10 yes no script outcomes ih
  | case17 name body script outcomes ih =>
      simpa only [List.cons_append, calls] using ih h

/-- Two statements make the same calls, whatever follows. -/
def Same (statement other : Statement) : Prop :=
  ∀ rest outcomes, calls (statement :: rest) outcomes = calls (other :: rest) outcomes

/-- Two scripts make the same calls, whatever follows. -/
def SameCalls (script other : List Statement) : Prop :=
  ∀ rest outcomes, calls (script ++ rest) outcomes = calls (other ++ rest) outcomes

/-- A statement makes the same calls as itself. -/
theorem Same.refl (statement : Statement) : Same statement statement :=
  fun _ _ => rfl

section Congruence

variable {statement other : Statement}

/-- The first statement of a script may be replaced by one that makes the same calls. -/
theorem Same.cons (h : Same statement other) (script : List Statement) :
    SameCalls (statement :: script) (other :: script) :=
  fun rest => h (script ++ rest)

/-- The rest of a script may be replaced by one that makes the same calls. -/
theorem SameCalls.cons {script others : List Statement} (h : SameCalls script others)
    (statement : Statement) : SameCalls (statement :: script) (statement :: others) :=
  fun rest outcomes =>
    calls_append_congr [statement] outcomes fun later _ => h rest later

/-- A block may be replaced by one whose statements make the same calls. -/
theorem SameCalls.block {script others : List Statement} (h : SameCalls script others) :
    Same (.block script) (.block others) := by
  intro rest outcomes
  simpa only [calls] using h rest outcomes

/-- The body of a conditional without `else` may be replaced by one that makes the same calls. -/
theorem Same.branch (h : Same statement other) (condition : Condition) :
    Same (.branch condition statement) (.branch condition other) := by
  intro rest outcomes
  match condition, outcomes with
  | .constant true, _ | .call _, true :: _ => simp only [calls, h rest]
  | .constant false, _ | .call _, [] | .call _, false :: _ => simp only [calls]

/-- Both branches of a conditional may be replaced by ones that make the same calls. -/
theorem Same.choice {no otherNo : Statement} (h : Same statement other) (hno : Same no otherNo)
    (condition : Condition) :
    Same (.choice condition statement no) (.choice condition other otherNo) := by
  intro rest outcomes
  match condition, outcomes with
  | .constant true, _ | .call _, true :: _ => simp only [calls, h rest]
  | .constant false, _ | .call _, false :: _ => simp only [calls, hno rest]
  | .call _, [] => simp only [calls]

/-- What a label stands at may be replaced by what makes the same calls. -/
theorem Same.label (h : Same statement other) (name : List Char) :
    Same (.label name statement) (.label name other) := by
  intro rest outcomes
  simpa only [calls] using h rest outcomes

/-- The body of a loop may be replaced by one that makes the same calls. -/
theorem Same.loop (h : Same statement other) (name : List Char) :
    Same (.loop name statement) (.loop name other) := by
  intro rest outcomes
  -- each round uses an outcome up, so the induction is on their number
  induction hlength : outcomes.length using Nat.strongRecOn generalizing outcomes with
  | ind length ih =>
      match outcomes with
      | [] | false :: _ => simp only [calls]
      | true :: outcomes =>
          have hlater : ∀ later : List Bool, later.length ≤ outcomes.length →
              calls (.loop name statement :: rest) later =
                calls (.loop name other :: rest) later :=
            fun later hle => ih later.length (by simp at hlength; omega) later rfl
          calc calls (.loop name statement :: rest) (true :: outcomes)
              = name :: calls (other :: .loop name statement :: rest) outcomes := by
                rw [calls, h]
            _ = name :: calls (other :: .loop name other :: rest) outcomes :=
                congrArg _ (calls_append_congr [other] outcomes hlater)
            _ = calls (.loop name other :: rest) (true :: outcomes) := by rw [calls]

end Congruence

/-- What a conditional with the condition `false` does. -/
theorem same_branch_false (yes : Statement) : Same (.branch (.constant false) yes) (.block []) := by
  intro rest outcomes
  simp only [calls, List.nil_append]

/-- What a conditional with the condition `true` does. -/
theorem same_branch_true (yes : Statement) : Same (.branch (.constant true) yes) yes := by
  intro rest outcomes
  simp only [calls]

/-- A choice with a constant condition does what its branch does. -/
theorem same_choice_constant (value : Bool) (yes no : Statement) :
    Same (.choice (.constant value) yes no) (if value then yes else no) := by
  intro rest outcomes
  cases value <;> simp [calls]

end MiniProgram.Script
