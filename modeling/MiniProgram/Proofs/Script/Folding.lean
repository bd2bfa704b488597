import MiniProgram.Proofs.Script.Calls

/-!
# Folding a conditional of a script

`Folds before after` says that `after` is left of the tokens `before` when one conditional with a
constant condition and a block behind it is folded, wherever it stands. The block reaches up to the
brace that closes it, which is found by counting. Read `folds_tokens` first: folding the tokens of a
proper script gives the tokens of a proper script that makes the same calls.

The step is taken by one case for each kind of statement (`Statement.folds_tokens`). It happens
inside of the statement, and then leaves a statement that is the same, or behind it.
-/

namespace MiniProgram.Script

open Source (Token)
open Source.Token (word mark)

/-- `Closes depth tokens` says that the last token closes the block in which `depth` further blocks
are open in front of `tokens`, and that none before it does. -/
inductive Closes : Nat → List Token → Prop where
  | last : Closes 0 [mark '}']
  | opening {depth tokens} : Closes (depth + 1) tokens → Closes depth (mark '{' :: tokens)
  | closing {depth tokens} : Closes depth tokens → Closes (depth + 1) (mark '}' :: tokens)
  | other {depth token tokens} : token ≠ mark '{' → token ≠ mark '}' → Closes depth tokens →
      Closes depth (token :: tokens)

/-- A conditional with a constant condition, up to the brace that opens its block. -/
def header (value : Bool) : List Token :=
  [word ['i', 'f'], mark '(', constantWord value, mark ')', mark '{']

/-- `Folds before after` says that folding one conditional of `before` leaves `after`. -/
inductive Folds : List Token → List Token → Prop where
  | dropped {inner after} : Closes 0 inner → after.head? ≠ some elseWord →
      Folds (header false ++ (inner ++ after)) (mark '{' :: mark '}' :: after)
  | other {inner after} : Closes 0 inner →
      Folds (header false ++ (inner ++ elseWord :: after)) after
  | kept {inner after} : Closes 0 inner → after.head? ≠ some elseWord →
      Folds (header true ++ (inner ++ after)) (mark '{' :: (inner ++ after))
  | chosen {inner alternative after} : Closes 0 inner → Closes 0 alternative →
      Folds (header true ++ (inner ++ elseWord :: mark '{' :: (alternative ++ after)))
        (mark '{' :: (inner ++ after))
  | later {token before after} : Folds before after → Folds (token :: before) (token :: after)

section Blocks

variable {depth : Nat} {block other rest otherRest : List Token}

/-- Only one leading part of a list closes a block. -/
theorem Closes.append_inj (h : Closes depth block) (hother : Closes depth other)
    (hsame : block ++ rest = other ++ otherRest) : block = other ∧ rest = otherRest := by
  induction h generalizing other with
  | last =>
      cases hother with
      | last => simpa using hsame
      | opening => simp at hsame
      | other _ hclosing => simp [eq_comm, hclosing] at hsame
  | opening h ih =>
      cases hother with
      | last => simp at hsame
      | opening hother =>
          obtain ⟨rfl, hrest⟩ := ih hother (List.cons.inj hsame).2
          exact ⟨rfl, hrest⟩
      | closing => simp at hsame
      | other hopening => simp [eq_comm, hopening] at hsame
  | closing h ih =>
      cases hother with
      | opening => simp at hsame
      | closing hother =>
          obtain ⟨rfl, hrest⟩ := ih hother (List.cons.inj hsame).2
          exact ⟨rfl, hrest⟩
      | other _ hclosing => simp [eq_comm, hclosing] at hsame
  | other hopening hclosing h ih =>
      cases hother with
      | last => simp [hclosing] at hsame
      | opening => simp [hopening] at hsame
      | closing => simp [hclosing] at hsame
      | other _ _ hother =>
          obtain ⟨rfl, htail⟩ := List.cons.inj hsame
          obtain ⟨rfl, hrest⟩ := ih hother htail
          exact ⟨rfl, hrest⟩

/-- A word in front changes nothing about the block that is closed. -/
theorem Closes.word {name : List Char} (h : Closes depth block) :
    Closes depth (word name :: block) :=
  .other (by simp) (by simp) h

/-- A condition in parentheses closes no block around it. -/
theorem Closes.condition (condition : Condition) (h : Closes depth block) :
    Closes depth (condition.tokens ++ mark ')' :: block) := by
  have hparenthesis : Closes depth (mark ')' :: block) := .other (by simp) (by simp) h
  cases condition with
  | constant value => cases value <;> exact hparenthesis.word
  | call name =>
      exact .word (.other (by simp) (by simp) (.other (by simp) (by simp) hparenthesis))

mutual

/-- A statement closes no block around it. -/
theorem Closes.statement (statement : Statement) {depth : Nat} {rest : List Token}
    (h : Closes depth rest) : Closes depth (statement.tokens ++ rest) := by
  match statement with
  | .call name =>
      exact .word (.other (by simp) (by simp) (.other (by simp) (by simp)
        (.other (by simp) (by simp) h)))
  | .block body =>
      simp only [Statement.tokens, List.cons_append, List.append_assoc]
      exact .opening (Closes.script body (.closing h))
  | .branch condition yes =>
      simp only [Statement.tokens, List.cons_append, List.append_assoc]
      exact .word (.other (by simp) (by simp) (.condition condition (Closes.statement yes h)))
  | .choice condition yes no =>
      simp only [Statement.tokens, List.cons_append, List.append_assoc]
      exact .word (.other (by simp) (by simp) (.condition condition
        (Closes.statement yes (.word (Closes.statement no h)))))
  | .loop name body =>
      exact .word (.other (by simp) (by simp) (.word (.other (by simp) (by simp)
        (.other (by simp) (by simp) (.other (by simp) (by simp) (Closes.statement body h))))))
  | .label name body =>
      exact .word (.other (by simp) (by simp) (Closes.statement body h))

/-- A script closes no block around it. -/
theorem Closes.script (script : List Statement) {depth : Nat} {rest : List Token}
    (h : Closes depth rest) : Closes depth (tokens script ++ rest) := by
  match script with
  | [] => exact h
  | statement :: script =>
      rw [tokens, List.append_assoc]
      exact Closes.statement statement (Closes.script script h)

end

/-- The body of a block ends at its closing brace. -/
theorem closes_body (body : List Statement) : Closes 0 (tokens body ++ [mark '}']) :=
  .script body .last

/-- Counting finds the brace behind the body of a block. -/
theorem Closes.eq_body {inner after : List Token} {body : List Statement} (h : Closes 0 inner)
    (hsame : inner ++ after = tokens body ++ mark '}' :: rest) :
    inner = tokens body ++ [mark '}'] ∧ after = rest :=
  h.append_inj (closes_body body) (by simpa using hsame)

end Blocks

section Steps

/-- A conditional starts with the word `if`, so any other token stays in front. -/
theorem Folds.of_cons {token : Token} {before after : List Token}
    (htoken : token ≠ word ['i', 'f']) (h : Folds (token :: before) after) :
    ∃ behind, Folds before behind ∧ after = token :: behind := by
  generalize hall : token :: before = all at h
  cases h with
  | dropped | other | kept | chosen => exact absurd (List.cons.inj hall).1 htoken
  | later h =>
      obtain ⟨rfl, rfl⟩ := List.cons.inj hall
      exact ⟨_, h, rfl⟩

/-- A fold leaves a mark in front, as no conditional starts with one. -/
theorem Folds.of_mark {c : Char} {before after : List Token} (h : Folds (mark c :: before) after) :
    ∃ behind, Folds before behind ∧ after = mark c :: behind :=
  h.of_cons (by simp)

/-- A fold leaves an identifier in front, as no conditional starts with one. -/
theorem Folds.of_identifier {name : List Char} {before after : List Token}
    (hname : IsIdentifier name) (h : Folds (word name :: before) after) :
    ∃ behind, Folds before behind ∧ after = word name :: behind :=
  h.of_cons (by simpa using hname.ne (by simp [keywords]))

/-- No condition holds a conditional. -/
theorem Folds.of_condition {condition : Condition} {before after : List Token}
    (hproper : condition.Proper) (h : Folds (condition.tokens ++ mark ')' :: before) after) :
    ∃ behind, Folds before behind ∧ after = condition.tokens ++ mark ')' :: behind := by
  cases condition with
  | constant value =>
      obtain ⟨_, hclosing, rfl⟩ := h.of_cons (by cases value <;> simp [constantWord])
      obtain ⟨behind, hbehind, rfl⟩ := hclosing.of_mark
      exact ⟨behind, hbehind, rfl⟩
  | call name =>
      obtain ⟨_, hopening, rfl⟩ := h.of_identifier hproper
      obtain ⟨_, hclosing, rfl⟩ := hopening.of_mark
      obtain ⟨_, hlast, rfl⟩ := hclosing.of_mark
      obtain ⟨behind, hbehind, rfl⟩ := hlast.of_mark
      exact ⟨behind, hbehind, rfl⟩

/-- What stands between a conditional and what follows its condition. -/
theorem Folds.of_if {condition : Condition} {before after : List Token}
    (hproper : condition.Proper)
    (h : Folds (mark '(' :: (condition.tokens ++ mark ')' :: before)) after) :
    ∃ behind, Folds before behind ∧
      after = mark '(' :: (condition.tokens ++ mark ')' :: behind) := by
  obtain ⟨_, hcondition, rfl⟩ := h.of_mark
  obtain ⟨behind, hbehind, rfl⟩ := hcondition.of_condition hproper
  exact ⟨behind, hbehind, rfl⟩

/-- A statement that starts with a brace is a block. -/
theorem eq_block {statement : Statement} {rest inner : List Token}
    (h : statement.tokens ++ rest = mark '{' :: inner) :
    ∃ body, statement = .block body ∧ inner = tokens body ++ mark '}' :: rest := by
  cases statement with
  | block body =>
      refine ⟨body, rfl, ?_⟩
      simpa [Statement.tokens, eq_comm] using h
  | _ => simp [Statement.tokens] at h

/-- A conditional that is folded right here has a constant condition and a block behind it. -/
theorem eq_of_header {condition : Condition} {yes : Statement} {block after rest : List Token}
    {value : Bool} (hproper : condition.Proper) (hblock : Closes 0 block)
    (h : header value ++ (block ++ after) =
      word ['i', 'f'] :: mark '(' :: (condition.tokens ++ mark ')' :: (yes.tokens ++ rest))) :
    condition = .constant value ∧ after = rest ∧
      ∃ body, yes = .block body ∧ block = tokens body ++ [mark '}'] := by
  have hcondition : (Condition.constant value).tokens ++ mark ')' :: mark '{' :: (block ++ after) =
      condition.tokens ++ mark ')' :: (yes.tokens ++ rest) :=
    (List.cons.inj (List.cons.inj h).2).2
  have hconstant : (Condition.constant value).Proper := trivial
  obtain ⟨rfl, hyes⟩ := Condition.tokens_inj hconstant hproper hcondition
  obtain ⟨body, rfl, hinner⟩ := eq_block hyes.symm
  obtain ⟨rfl, rfl⟩ := hblock.eq_body hinner
  exact ⟨rfl, rfl, body, rfl, rfl⟩

end Steps

/-- `Steps statement rest after` says that `after` is left of the tokens of `statement` in front of
`rest` by a step that keeps its meaning: the tokens of a statement that is the same in front of
`rest`, or those of the statement itself in front of a folded rest. -/
def Steps (statement : Statement) (rest after : List Token) : Prop :=
  (∃ folded : Statement, after = folded.tokens ++ rest ∧ folded.Proper ∧
      (folded.isOpen = true → statement.isOpen = true) ∧ Same statement folded) ∨
    ∃ behind, Folds rest behind ∧ after = statement.tokens ++ behind

section Conditionals

variable {condition : Condition} {yes no : Statement} {rest after : List Token}

/-- A conditional without an else branch is folded right here, or something behind its condition
is. -/
theorem folds_branch (hproper : (Statement.branch condition yes).Proper)
    (hrest : rest.head? ≠ some elseWord)
    (h : Folds ((Statement.branch condition yes).tokens ++ rest) after) :
    Steps (.branch condition yes) rest after ∨
      ∃ behind, Folds (yes.tokens ++ rest) behind ∧
        after = word ['i', 'f'] :: mark '(' :: (condition.tokens ++ mark ')' :: behind) := by
  simp only [Statement.tokens, List.cons_append, List.append_assoc] at h
  generalize hall : word ['i', 'f'] :: mark '(' ::
    (condition.tokens ++ mark ')' :: (yes.tokens ++ rest)) = all at h
  cases h with
  | dropped hblock hafter =>
      obtain ⟨rfl, rfl, body, rfl, rfl⟩ := eq_of_header hproper.1 hblock hall.symm
      exact .inl (.inl ⟨.block [], rfl, trivial, nofun, same_branch_false _⟩)
  | other hblock =>
      obtain ⟨rfl, rfl, body, rfl, rfl⟩ := eq_of_header hproper.1 hblock hall.symm
      exact absurd rfl hrest
  | kept hblock hafter =>
      obtain ⟨rfl, rfl, body, rfl, rfl⟩ := eq_of_header hproper.1 hblock hall.symm
      exact .inl (.inl ⟨.block body, rfl, hproper.2, nofun, same_branch_true _⟩)
  | chosen hblock halternative =>
      obtain ⟨rfl, rfl, body, rfl, rfl⟩ := eq_of_header hproper.1 hblock hall.symm
      exact absurd rfl hrest
  | later h =>
      obtain ⟨rfl, rfl⟩ := List.cons.inj hall
      obtain ⟨behind, hbehind, rfl⟩ := h.of_if hproper.1
      exact .inr ⟨behind, hbehind, rfl⟩

/-- A conditional with an else branch is folded right here, or something behind its condition is. -/
theorem folds_choice (hproper : (Statement.choice condition yes no).Proper)
    (h : Folds ((Statement.choice condition yes no).tokens ++ rest) after) :
    Steps (.choice condition yes no) rest after ∨
      ∃ behind, Folds (yes.tokens ++ elseWord :: (no.tokens ++ rest)) behind ∧
        after = word ['i', 'f'] :: mark '(' :: (condition.tokens ++ mark ')' :: behind) := by
  simp only [Statement.tokens, List.cons_append, List.append_assoc] at h
  generalize hall : word ['i', 'f'] :: mark '(' ::
    (condition.tokens ++ mark ')' :: (yes.tokens ++ elseWord :: (no.tokens ++ rest))) = all at h
  cases h with
  | dropped hblock hafter =>
      obtain ⟨rfl, rfl, body, rfl, rfl⟩ := eq_of_header hproper.1 hblock hall.symm
      exact absurd rfl hafter
  | other hblock =>
      obtain ⟨rfl, hafter, body, rfl, rfl⟩ := eq_of_header hproper.1 hblock hall.symm
      obtain rfl := (List.cons.inj hafter).2
      exact .inl (.inl ⟨no, rfl, hproper.2.2.2, id, same_choice_constant false _ _⟩)
  | kept hblock hafter =>
      obtain ⟨rfl, rfl, body, rfl, rfl⟩ := eq_of_header hproper.1 hblock hall.symm
      exact absurd rfl hafter
  | @chosen _ alternative after hblock halternative =>
      obtain ⟨rfl, hafter, body, rfl, rfl⟩ := eq_of_header hproper.1 hblock hall.symm
      obtain ⟨other, rfl, hother⟩ := eq_block (List.cons.inj hafter).2.symm
      obtain ⟨rfl, rfl⟩ := halternative.eq_body hother
      exact .inl (.inl ⟨.block body, rfl, hproper.2.1, nofun, same_choice_constant true _ _⟩)
  | later h =>
      obtain ⟨rfl, rfl⟩ := List.cons.inj hall
      obtain ⟨behind, hbehind, rfl⟩ := h.of_if hproper.1
      exact .inr ⟨behind, hbehind, rfl⟩

end Conditionals

mutual

/-- Folding a conditional in the tokens of a proper statement, or behind them, keeps the meaning of
the statement. -/
theorem Statement.folds_tokens {statement : Statement} {rest after : List Token}
    (hproper : statement.Proper) (hrest : Follows statement rest)
    (h : Folds (statement.tokens ++ rest) after) : Steps statement rest after := by
  match statement with
  | .call name =>
      obtain ⟨_, hopening, rfl⟩ := Folds.of_identifier hproper h
      obtain ⟨_, hclosing, rfl⟩ := hopening.of_mark
      obtain ⟨_, hsemicolon, rfl⟩ := hclosing.of_mark
      obtain ⟨behind, hbehind, rfl⟩ := hsemicolon.of_mark
      exact .inr ⟨behind, hbehind, rfl⟩
  | .block body =>
      simp only [Statement.tokens, List.cons_append, List.append_assoc] at h
      obtain ⟨_, hbody, rfl⟩ := h.of_mark
      have hbodyProper : Proper body := hproper
      rcases folds_tokens hbodyProper (.inr rfl) hbody with
        ⟨folded, rfl, hfolded, -, hsame⟩ | ⟨_, hclosing, rfl⟩
      · exact .inl ⟨.block folded, by simp [Statement.tokens], hfolded, nofun, hsame.block⟩
      · obtain ⟨behind, hbehind, rfl⟩ := hclosing.of_mark
        exact .inr ⟨behind, hbehind, by simp [Statement.tokens]⟩
  | .branch condition yes =>
      rcases folds_branch hproper (hrest rfl) h with hsteps | ⟨_, hyes, rfl⟩
      · exact hsteps
      · rcases Statement.folds_tokens hproper.2 (fun _ => hrest rfl) hyes with
          ⟨folded, rfl, hfolded, -, hsame⟩ | ⟨behind, hbehind, rfl⟩
        · exact .inl ⟨.branch condition folded, by simp [Statement.tokens],
            ⟨hproper.1, hfolded⟩, fun _ => rfl, hsame.branch condition⟩
        · exact .inr ⟨behind, hbehind, by simp [Statement.tokens]⟩
  | .choice condition yes no =>
      rcases folds_choice hproper h with hsteps | ⟨_, hyes, rfl⟩
      · exact hsteps
      · have hclosed : yes.isOpen ≠ true := by simp [hproper.2.2.1]
        rcases Statement.folds_tokens hproper.2.1 (fun hopen => absurd hopen hclosed) hyes with
          ⟨folded, rfl, hfolded, hopen, hsame⟩ | ⟨_, helse, rfl⟩
        · refine .inl ⟨.choice condition folded no, by simp [Statement.tokens],
            ⟨hproper.1, hfolded, ?_, hproper.2.2.2⟩, id, hsame.choice (.refl no) condition⟩
          exact Bool.eq_false_iff.2 fun h => hclosed (hopen h)
        · obtain ⟨_, hno, rfl⟩ := helse.of_cons (by simp [elseWord])
          rcases Statement.folds_tokens hproper.2.2.2 (fun hopen => hrest hopen) hno with
            ⟨folded, rfl, hfolded, hopen, hsame⟩ | ⟨behind, hbehind, rfl⟩
          · exact .inl ⟨.choice condition yes folded, by simp [Statement.tokens],
              ⟨hproper.1, hproper.2.1, hproper.2.2.1, hfolded⟩, hopen,
              (Same.refl yes).choice hsame condition⟩
          · exact .inr ⟨behind, hbehind, by simp [Statement.tokens]⟩
  | .loop name body =>
      obtain ⟨_, hopening, rfl⟩ := Folds.of_cons (by simp) h
      obtain ⟨_, hname, rfl⟩ := hopening.of_mark
      obtain ⟨_, hcall, rfl⟩ := hname.of_identifier hproper.1
      obtain ⟨_, hclosing, rfl⟩ := hcall.of_mark
      obtain ⟨_, hlast, rfl⟩ := hclosing.of_mark
      obtain ⟨_, hbody, rfl⟩ := hlast.of_mark
      rcases Statement.folds_tokens hproper.2 (fun hopen => hrest hopen) hbody with
        ⟨folded, rfl, hfolded, hopen, hsame⟩ | ⟨behind, hbehind, rfl⟩
      · exact .inl ⟨.loop name folded, rfl, ⟨hproper.1, hfolded⟩, hopen, hsame.loop name⟩
      · exact .inr ⟨behind, hbehind, rfl⟩
  | .label name body =>
      obtain ⟨_, hcolon, rfl⟩ := Folds.of_identifier hproper.1 h
      obtain ⟨_, hbody, rfl⟩ := hcolon.of_mark
      rcases Statement.folds_tokens hproper.2 (fun hopen => hrest hopen) hbody with
        ⟨folded, rfl, hfolded, hopen, hsame⟩ | ⟨behind, hbehind, rfl⟩
      · exact .inl ⟨.label name folded, rfl, ⟨hproper.1, hfolded⟩, hopen, hsame.label name⟩
      · exact .inr ⟨behind, hbehind, rfl⟩

/-- Folding a conditional in the tokens of a proper script, or behind them, keeps the calls of the
script. -/
theorem folds_tokens {script : List Statement} {rest after : List Token}
    (hproper : Proper script) (hrest : Ends rest) (h : Folds (tokens script ++ rest) after) :
    (∃ folded, after = tokens folded ++ rest ∧ Proper folded ∧ folded.length = script.length ∧
        SameCalls script folded) ∨
      ∃ behind, Folds rest behind ∧ after = tokens script ++ behind := by
  match script with
  | [] => exact .inr ⟨after, h, rfl⟩
  | statement :: script =>
      rw [tokens, List.append_assoc] at h
      rcases Statement.folds_tokens hproper.1 (follows_tokens hproper.2 hrest) h with
        ⟨folded, rfl, hfolded, -, hsame⟩ | ⟨_, hscript, rfl⟩
      · exact .inl ⟨folded :: script, by simp [tokens], ⟨hfolded, hproper.2⟩, rfl,
          hsame.cons script⟩
      · rcases folds_tokens hproper.2 hrest hscript with
          ⟨folded, rfl, hfolded, hlength, hsame⟩ | ⟨behind, hbehind, rfl⟩
        · exact .inl ⟨statement :: folded, by simp [tokens], ⟨hproper.1, hfolded⟩,
            congrArg (· + 1) hlength, hsame.cons statement⟩
        · exact .inr ⟨behind, hbehind, by simp [tokens]⟩

end

end MiniProgram.Script
