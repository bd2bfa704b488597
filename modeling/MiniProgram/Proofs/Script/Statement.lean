import MiniProgram.Proofs.Source.Token

/-!
# Scripts of calls, branches and loops

A small statement language to say what code means. A statement is a call, a block, a conditional
with or without an else branch, a loop or a labelled statement; a condition is a constant or the
outcome of a call. `tokens` writes a statement as words and marks.

An `else` belongs to the nearest conditional that is still open. So the first branch of a
conditional with two branches must not take an else that follows it (`Statement.Proper`), and
`tokens_inj` says that the tokens of a proper script determine it.
-/

namespace MiniProgram.Script

open Source (Token isName)
open Source.Token (word mark)

/-- What a conditional asks: nothing, or the outcome of a call. -/
inductive Condition where
  | constant (value : Bool)
  | call (name : List Char)
  deriving DecidableEq, Repr

/-- A statement of a script. -/
inductive Statement where
  | call (name : List Char)
  | block (body : List Statement)
  | branch (condition : Condition) (yes : Statement)
  | choice (condition : Condition) (yes no : Statement)
  | loop (name : List Char) (body : Statement)
  | label (name : List Char) (body : Statement)
  deriving Repr

/-- The word `else`. -/
def elseWord : Token :=
  word ['e', 'l', 's', 'e']

/-- The words that are not identifiers. -/
def keywords : List (List Char) :=
  [['i', 'f'], ['e', 'l', 's', 'e'], ['w', 'h', 'i', 'l', 'e'], ['t', 'r', 'u', 'e'],
    ['f', 'a', 'l', 's', 'e'], ['i', 'm', 'p', 'o', 'r', 't']]

/-- The word of a truth value. -/
def constantWord (value : Bool) : Token :=
  if value then word ['t', 'r', 'u', 'e'] else word ['f', 'a', 'l', 's', 'e']

/-- The tokens of a condition. -/
def Condition.tokens : Condition → List Token
  | .constant value => [constantWord value]
  | .call name => [word name, mark '(', mark ')']

mutual

/-- The tokens of a statement. -/
def Statement.tokens : Statement → List Token
  | .call name => [word name, mark '(', mark ')', mark ';']
  | .block body => mark '{' :: (tokens body ++ [mark '}'])
  | .branch condition yes =>
      word ['i', 'f'] :: mark '(' :: (condition.tokens ++ mark ')' :: yes.tokens)
  | .choice condition yes no =>
      word ['i', 'f'] :: mark '(' ::
        (condition.tokens ++ mark ')' :: (yes.tokens ++ elseWord :: no.tokens))
  | .loop name body =>
      word ['w', 'h', 'i', 'l', 'e'] :: mark '(' ::
        word name :: mark '(' :: mark ')' :: mark ')' :: body.tokens
  | .label name body => word name :: mark ':' :: body.tokens

/-- The tokens of statements one after the other. -/
def tokens : List Statement → List Token
  | [] => []
  | statement :: rest => statement.tokens ++ tokens rest

end

/-- A statement that would take an `else` that follows it. -/
def Statement.isOpen : Statement → Bool
  | .call _ => false
  | .block _ => false
  | .branch _ _ => true
  | .choice _ _ no => no.isOpen
  | .loop _ body => body.isOpen
  | .label _ body => body.isOpen

/-- A word that names something: it is no word of the language and starts with no digit. -/
def IsIdentifier (name : List Char) : Prop :=
  isName name = true ∧ name ∉ keywords ∧ name.head?.all (!·.isDigit) = true

/-- A condition calls something that has a name. -/
def Condition.Proper : Condition → Prop
  | .constant _ => True
  | .call name => IsIdentifier name

mutual

/-- A statement with proper names in which every `else` belongs to the nearest conditional that is
still open. -/
def Statement.Proper : Statement → Prop
  | .call name => IsIdentifier name
  | .block body => Proper body
  | .branch condition yes => condition.Proper ∧ yes.Proper
  | .choice condition yes no =>
      condition.Proper ∧ yes.Proper ∧ yes.isOpen = false ∧ no.Proper
  | .loop name body => IsIdentifier name ∧ body.Proper
  | .label name body => IsIdentifier name ∧ body.Proper

/-- A script whose statements are all proper. -/
def Proper : List Statement → Prop
  | [] => True
  | statement :: rest => statement.Proper ∧ Proper rest

end

/-- The statements in front of which no `else` may stand are the open ones. -/
def Follows (statement : Statement) (rest : List Token) : Prop :=
  statement.isOpen = true → rest.head? ≠ some elseWord

/-- What does not start with `else` may follow any statement. -/
theorem follows_of_head? {statement : Statement} {rest : List Token}
    (h : rest.head? ≠ some elseWord) : Follows statement rest :=
  fun _ => h

/-- An identifier is none of the words of the language. -/
theorem IsIdentifier.ne {name word : List Char} (h : IsIdentifier name) (hword : word ∈ keywords) :
    name ≠ word :=
  fun hsame => h.2.1 (hsame ▸ hword)

/-- A statement starts neither with `else` nor with a closing brace. -/
theorem head?_tokens_ne {statement : Statement} (h : statement.Proper) (rest : List Token) :
    (statement.tokens ++ rest).head? ≠ some elseWord ∧
      (statement.tokens ++ rest).head? ≠ some (mark '}') := by
  cases statement with
  | call name => simpa [Statement.tokens, elseWord] using h.ne (by simp [keywords])
  | label name body =>
      simpa [Statement.tokens, elseWord] using IsIdentifier.ne h.1 (by simp [keywords])
  | _ => simp [Statement.tokens, elseWord]

/-- What may follow a whole script: nothing or the closing brace of its block. -/
def Ends (rest : List Token) : Prop :=
  rest = [] ∨ rest.head? = some (mark '}')

/-- No `else` follows a statement within a script. -/
theorem follows_tokens {statement : Statement} {script : List Statement} {rest : List Token}
    (hproper : Proper script) (hends : Ends rest) : Follows statement (tokens script ++ rest) := by
  apply follows_of_head?
  cases script with
  | nil => rcases hends with rfl | hbrace <;> simp_all [tokens, elseWord]
  | cons first script =>
      rw [tokens, List.append_assoc]
      exact (head?_tokens_ne hproper.1 _).1

/-- A script does not end where a statement starts. -/
theorem not_ends_tokens {statement : Statement} (hproper : statement.Proper) (rest : List Token) :
    ¬ Ends (statement.tokens ++ rest) := by
  rintro (hnil | hbrace)
  · cases statement <;> simp [Statement.tokens] at hnil
  · exact (head?_tokens_ne hproper rest).2 hbrace

/-- The tokens of a condition in parentheses determine it. -/
theorem Condition.tokens_inj {condition other : Condition} {rest otherRest : List Token}
    (hproper : condition.Proper) (hother : other.Proper)
    (h : condition.tokens ++ mark ')' :: rest = other.tokens ++ mark ')' :: otherRest) :
    condition = other ∧ rest = otherRest := by
  have hname {name : List Char} (value : Bool) (h : IsIdentifier name) :
      constantWord value ≠ word name := by
    cases value <;> simpa [constantWord, eq_comm] using h.ne (by simp [keywords])
  cases condition with
  | constant value =>
      cases other with
      | constant otherValue =>
          cases value <;> cases otherValue <;> simp_all [Condition.tokens, constantWord]
      | call otherName =>
          exact absurd (List.cons.inj h).1 (hname value hother)
  | call name =>
      cases other with
      | constant otherValue =>
          exact absurd (List.cons.inj h).1.symm (hname otherValue hproper)
      | call otherName => simpa [Condition.tokens] using h

/-- A statement and another one start with the same tokens only if they are of one kind. -/
def Alike : Statement → Statement → Prop
  | .call _, .call _ => True
  | .block _, .block _ => True
  | .branch _ _, .branch _ _ => True
  | .branch _ _, .choice _ _ _ => True
  | .choice _ _ _, .branch _ _ => True
  | .choice _ _ _, .choice _ _ _ => True
  | .loop _ _, .loop _ _ => True
  | .label _ _, .label _ _ => True
  | _, _ => False

/-- Statements whose tokens begin one text are of one kind. -/
theorem alike_of_tokens {statement other : Statement} {rest otherRest : List Token}
    (hproper : statement.Proper) (hother : other.Proper)
    (h : statement.tokens ++ rest = other.tokens ++ otherRest) : Alike statement other := by
  cases statement <;> cases other <;>
    simp_all [Alike, Statement.tokens, Statement.Proper, IsIdentifier, keywords]

mutual

/-- The tokens of a proper statement determine it. -/
theorem Statement.tokens_inj {statement other : Statement} {rest otherRest : List Token}
    (hproper : statement.Proper) (hother : other.Proper)
    (hrest : Follows statement rest) (hotherRest : Follows other otherRest)
    (h : statement.tokens ++ rest = other.tokens ++ otherRest) :
    statement = other ∧ rest = otherRest := by
  have halike := alike_of_tokens hproper hother h
  match statement, other, halike with
  | .call name, .call otherName, _ => simpa [Statement.tokens] using h
  | .block body, .block otherBody, _ =>
      simp only [Statement.tokens, List.cons_append, List.append_assoc, List.cons.injEq] at h
      have hbody : Proper body := hproper
      obtain ⟨rfl, hmark⟩ := tokens_inj hbody hother (.inr rfl) (.inr rfl) h.2
      simpa using hmark
  | .branch condition yes, .branch otherCondition otherYes, _ =>
      simp only [Statement.tokens, List.cons_append, List.append_assoc, List.cons.injEq] at h
      obtain ⟨rfl, hyes⟩ := Condition.tokens_inj hproper.1 hother.1 h.2.2
      obtain ⟨rfl, hrests⟩ := Statement.tokens_inj hproper.2 hother.2
        (fun _ => hrest rfl) (fun _ => hotherRest rfl) hyes
      exact ⟨rfl, hrests⟩
  | .branch condition yes, .choice otherCondition otherYes otherNo, _ =>
      -- the nearest conditional takes the `else`, so nothing that follows can start with one
      simp only [Statement.tokens, List.cons_append, List.append_assoc, List.cons.injEq] at h
      obtain ⟨rfl, hyes⟩ := Condition.tokens_inj hproper.1 hother.1 h.2.2
      have hends := (Statement.tokens_inj hproper.2 hother.2.1 (fun _ => hrest rfl)
        (fun hopen => by simp [hother.2.2.1] at hopen) hyes).2
      exact absurd (by rw [hends]; rfl) (hrest rfl)
  | .choice condition yes no, .branch otherCondition otherYes, _ =>
      simp only [Statement.tokens, List.cons_append, List.append_assoc, List.cons.injEq] at h
      obtain ⟨rfl, hyes⟩ := Condition.tokens_inj hproper.1 hother.1 h.2.2
      have hends := (Statement.tokens_inj hproper.2.1 hother.2
        (fun hopen => by simp [hproper.2.2.1] at hopen) (fun _ => hotherRest rfl) hyes).2
      exact absurd (by rw [← hends]; rfl) (hotherRest rfl)
  | .choice condition yes no, .choice otherCondition otherYes otherNo, _ =>
      simp only [Statement.tokens, List.cons_append, List.append_assoc, List.cons.injEq] at h
      obtain ⟨rfl, hyes⟩ := Condition.tokens_inj hproper.1 hother.1 h.2.2
      obtain ⟨rfl, hno⟩ := Statement.tokens_inj hproper.2.1 hother.2.1
        (fun hopen => by simp [hproper.2.2.1] at hopen)
        (fun hopen => by simp [hother.2.2.1] at hopen) hyes
      obtain ⟨rfl, hrests⟩ := Statement.tokens_inj hproper.2.2.2 hother.2.2.2
        (fun hopen => hrest hopen) (fun hopen => hotherRest hopen) (List.cons.inj hno).2
      exact ⟨rfl, hrests⟩
  | .loop name body, .loop otherName otherBody, _ =>
      simp only [Statement.tokens, List.cons_append, List.cons.injEq, Token.word.injEq] at h
      obtain ⟨-, -, rfl, -, -, -, hbody⟩ := h
      obtain ⟨rfl, hrests⟩ := Statement.tokens_inj hproper.2 hother.2
        (fun hopen => hrest hopen) (fun hopen => hotherRest hopen) hbody
      exact ⟨rfl, hrests⟩
  | .label name body, .label otherName otherBody, _ =>
      simp only [Statement.tokens, List.cons_append, List.cons.injEq, Token.word.injEq] at h
      obtain ⟨rfl, -, hbody⟩ := h
      obtain ⟨rfl, hrests⟩ := Statement.tokens_inj hproper.2 hother.2
        (fun hopen => hrest hopen) (fun hopen => hotherRest hopen) hbody
      exact ⟨rfl, hrests⟩

/-- The tokens of a proper script determine it. -/
theorem tokens_inj {script others : List Statement} {rest otherRest : List Token}
    (hproper : Proper script) (hother : Proper others) (hrest : Ends rest)
    (hotherRest : Ends otherRest) (h : tokens script ++ rest = tokens others ++ otherRest) :
    script = others ∧ rest = otherRest := by
  match script, others with
  | [], [] => exact ⟨rfl, h⟩
  | [], other :: others =>
      rw [tokens, tokens, List.nil_append, List.append_assoc] at h
      exact absurd (h ▸ hrest) (not_ends_tokens hother.1 _)
  | statement :: script, [] =>
      rw [tokens, tokens, List.nil_append, List.append_assoc] at h
      exact absurd (h ▸ hotherRest) (not_ends_tokens hproper.1 _)
  | statement :: script, other :: others =>
      simp only [tokens, List.append_assoc] at h
      obtain ⟨rfl, hscript⟩ := Statement.tokens_inj hproper.1 hother.1
        (follows_tokens hproper.2 hrest) (follows_tokens hother.2 hotherRest) h
      obtain ⟨rfl, hrests⟩ := tokens_inj hproper.2 hother.2 hrest hotherRest hscript
      exact ⟨rfl, hrests⟩

end

end MiniProgram.Script
