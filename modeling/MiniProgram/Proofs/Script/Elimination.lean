import MiniProgram.Proofs.Script.Simulation
import MiniProgram.Proofs.Source.Idempotence
import MiniProgram.Proofs.Source.Segment

/-!
# Elimination keeps the calls of a script

`Writes text script` says that `text` writes a proper script, with any blanks between its tokens.
Read `calls_eliminate` first: elimination makes of a text of a script again a text of a script, and
the two scripts make the same calls, however the conditions come out. Folding keeps the calls step
by step (`foldAll_writes`), and there is no import to strip (`strip_coded`).
-/

namespace MiniProgram.Script

open Source Text
open Source.Token (word mark)

/-- A token that may stand in a script: any valid one but the word `import`. -/
def Allowed (token : Token) : Prop :=
  token.isValid = true ∧ token ≠ word importWord

/-- Whether a token is allowed is decided by evaluation. -/
instance (token : Token) : Decidable (Allowed token) :=
  inferInstanceAs (Decidable (_ ∧ _))

section Tokens

/-- An identifier may stand in a script. -/
theorem IsIdentifier.allowed {name : List Char} (h : IsIdentifier name) : Allowed (word name) :=
  ⟨h.1, by simpa using h.ne (by decide)⟩

/-- The tokens of the language itself are allowed. -/
theorem allowed_of_mem_fixed :
    ∀ token ∈ [word ['i', 'f'], elseWord, word ['w', 'h', 'i', 'l', 'e'], constantWord true,
      constantWord false, mark '(', mark ')', mark '{', mark '}', mark ';', mark ':'],
      Allowed token := by
  decide

/-- The tokens of a condition may stand in a script. -/
theorem Condition.allowed {condition : Condition} (hproper : condition.Proper) :
    ∀ token ∈ condition.tokens, Allowed token := by
  cases condition with
  | constant value =>
      refine List.forall_mem_singleton.2 ?_
      cases value <;> exact allowed_of_mem_fixed _ (by simp)
  | call name =>
      simp only [Condition.tokens, List.forall_mem_cons]
      exact ⟨IsIdentifier.allowed hproper, allowed_of_mem_fixed _ (by simp),
        allowed_of_mem_fixed _ (by simp), by simp⟩

mutual

/-- The tokens of a proper statement are allowed. -/
theorem Statement.allowed {statement : Statement} (hproper : statement.Proper) :
    ∀ token ∈ statement.tokens, Allowed token := by
  match statement with
  | .call name =>
      simp only [Statement.tokens, List.forall_mem_cons]
      exact ⟨IsIdentifier.allowed hproper, allowed_of_mem_fixed _ (by simp),
        allowed_of_mem_fixed _ (by simp), allowed_of_mem_fixed _ (by simp), by simp⟩
  | .block body =>
      have hbody : Proper body := hproper
      simp only [Statement.tokens, List.forall_mem_cons, List.forall_mem_append]
      exact ⟨allowed_of_mem_fixed _ (by simp), allowed hbody, allowed_of_mem_fixed _ (by simp),
        by simp⟩
  | .branch condition yes =>
      simp only [Statement.tokens, List.forall_mem_cons, List.forall_mem_append]
      exact ⟨allowed_of_mem_fixed _ (by simp), allowed_of_mem_fixed _ (by simp),
        Condition.allowed hproper.1, allowed_of_mem_fixed _ (by simp), Statement.allowed hproper.2⟩
  | .choice condition yes no =>
      simp only [Statement.tokens, List.forall_mem_cons, List.forall_mem_append]
      exact ⟨allowed_of_mem_fixed _ (by simp), allowed_of_mem_fixed _ (by simp),
        Condition.allowed hproper.1, allowed_of_mem_fixed _ (by simp),
        Statement.allowed hproper.2.1, allowed_of_mem_fixed _ (by simp),
        Statement.allowed hproper.2.2.2⟩
  | .loop name body =>
      simp only [Statement.tokens, List.forall_mem_cons]
      exact ⟨allowed_of_mem_fixed _ (by simp), allowed_of_mem_fixed _ (by simp), hproper.1.allowed,
        allowed_of_mem_fixed _ (by simp), allowed_of_mem_fixed _ (by simp),
        allowed_of_mem_fixed _ (by simp), Statement.allowed hproper.2⟩
  | .label name body =>
      simp only [Statement.tokens, List.forall_mem_cons]
      exact ⟨hproper.1.allowed, allowed_of_mem_fixed _ (by simp), Statement.allowed hproper.2⟩

/-- The tokens of a proper script are allowed. -/
theorem allowed {script : List Statement} (hproper : Proper script) :
    ∀ token ∈ tokens script, Allowed token := by
  match script with
  | [] => simp [tokens]
  | statement :: script =>
      rw [tokens]
      exact List.forall_mem_append.2 ⟨Statement.allowed hproper.1, allowed hproper.2⟩

end

end Tokens

/-- `Writes text script` says that `text` writes the proper script `script`. -/
def Writes (text : List Char) (script : List Statement) : Prop :=
  Proper script ∧ Spaced (tokens script) text

section Folding

variable {text : List Char} {script : List Statement}

/-- A text writes only one script. -/
theorem Writes.unique {other : List Statement} (h : Writes text script)
    (hother : Writes text other) : script = other := by
  have hsame : tokens script ++ [] = tokens other ++ [] := by rw [h.2.unique hother.2]
  exact (tokens_inj h.1 hother.1 (.inl rfl) (.inl rfl) hsame).1

/-- One folding step keeps the calls. -/
theorem writes_of_fold? {folded : List Glyph} (h : Writes text script)
    (hfold : fold? (coded text) = some folded) :
    ∃ written other, folded = coded written ∧ Writes written other ∧
      other.length = script.length ∧ SameCalls script other := by
  obtain ⟨left, written, rfl, hfolds, hleft⟩ := left_of_fold? h.2 hfold
  rw [← List.append_nil (tokens script)] at hfolds
  rcases folds_tokens h.1 (.inl rfl) hfolds with
    ⟨other, rfl, hother, hlength, hsame⟩ | ⟨behind, hbehind, -⟩
  · rw [List.append_nil] at hleft
    exact ⟨written, other, rfl, ⟨hother, hleft⟩, hlength, hsame⟩
  · cases hbehind

/-- A text of a script that `scan` accepts is all code. -/
theorem Writes.scan_eq {glyphs : List Glyph} (h : Writes text script)
    (hscan : scan text = some glyphs) : glyphs = coded text :=
  eq_coded_of_scanFrom h.2.isQuote_of_mem hscan

/-- Folding keeps the calls. -/
theorem foldAll_writes (h : Writes text script) :
    ∃ written other, foldAll (coded text) = coded written ∧ Writes written other ∧
      other.length = script.length ∧ SameCalls script other := by
  generalize hglyphs : coded text = glyphs
  fun_induction foldAll glyphs generalizing text script with
  | case1 glyphs hnone => exact ⟨text, script, hglyphs.symm, h, rfl, fun _ _ => rfl⟩
  | case2 glyphs folded hfold hnone => exact ⟨text, script, hglyphs.symm, h, rfl, fun _ _ => rfl⟩
  | case3 glyphs folded hfold next hscan ih =>
      subst hglyphs
      obtain ⟨written, other, rfl, hwritten, hlength, hsame⟩ := writes_of_fold? h hfold
      rw [chars_coded] at hscan
      obtain ⟨last, final, hlast, hfinal, hfinalLength, hfinalSame⟩ :=
        ih hwritten (hwritten.scan_eq hscan).symm
      refine ⟨last, final, hlast, hfinal, hfinalLength.trans hlength, fun rest outcomes => ?_⟩
      exact (hsame rest outcomes).trans (hfinalSame rest outcomes)

/-- A text of a script has no import to strip. -/
theorem strip_coded (h : Writes text script) : strip (coded text) = coded text := by
  refine strip_eq_self_of_not_standsIn fun hstands => ?_
  rw [chars_coded] at hstands
  have hmem : importWord ∈ wordsOf (tokens script) := by
    rw [← h.2.identifiers_eq]
    exact mem_identifiers_iff.2 ⟨isName_importWord, hstands⟩
  exact (allowed h.1 _ (mem_wordsOf_iff.1 hmem)).2 rfl

/-- Elimination makes a text of a script of a text of a script, and keeps the calls. -/
theorem eliminateChars_writes (h : Writes text script) :
    ∃ other, Writes (eliminateChars text) other ∧ other.length = script.length ∧
      SameCalls script other := by
  cases hscan : scan text with
  | none =>
      rw [eliminateChars_of_scan_eq_none hscan]
      exact ⟨script, h, rfl, fun _ _ => rfl⟩
  | some glyphs =>
      rw [eliminateChars_of_scan hscan, h.scan_eq hscan]
      obtain ⟨written, other, hfold, hwritten, hlength, hsame⟩ := foldAll_writes h
      rw [hfold, stripAll_eq_chars (strip_coded hwritten), chars_coded]
      exact ⟨other, hwritten, hlength, hsame⟩

end Folding

/-- Every proper script has a text. -/
theorem writes_spell {script : List Statement} (hproper : Proper script) :
    Writes ((tokens script).flatMap Token.spell) script :=
  ⟨hproper, .of_spell fun token htoken => (allowed hproper token htoken).1⟩

/-- Elimination makes of a text of a script again a text of a script. Whatever script it is, it has
as many statements and makes the same calls, however the conditions come out. -/
theorem calls_eliminate {source : String} {script : List Statement}
    (h : Writes source.toList script) :
    (∃ other, Writes (eliminate source).toList other) ∧
      ∀ other, Writes (eliminate source).toList other → other.length = script.length ∧
        ∀ outcomes, calls other outcomes = calls script outcomes := by
  rw [toList_eliminate]
  obtain ⟨folded, hfolded, hlength, hsame⟩ := eliminateChars_writes h
  refine ⟨⟨folded, hfolded⟩, fun other hother => ?_⟩
  obtain rfl := hother.unique hfolded
  refine ⟨hlength, fun outcomes => ?_⟩
  simpa using (hsame [] outcomes).symm

/-- Where a conditional behind an `else` is folded, its branch still runs behind the `else`. -/
theorem calls_eliminate_else_if :
    Writes "if ( a ( ) ) b ( ) ; else if ( true ) { c ( ) ; } ".toList
        [.choice (.call ['a']) (.call ['b']) (.branch (.constant true) (.block [.call ['c']]))] ∧
      ∀ other,
        Writes (eliminate "if ( a ( ) ) b ( ) ; else if ( true ) { c ( ) ; } ").toList other →
          calls other [false] = [['a'], ['c']] := by
  have hproper : Proper [.choice (.call ['a']) (.call ['b'])
      (.branch (.constant true) (.block [.call ['c']]))] := by
    simp only [Proper, Statement.Proper, Condition.Proper, IsIdentifier, Statement.isOpen]
    decide
  have hwrites : Writes "if ( a ( ) ) b ( ) ; else if ( true ) { c ( ) ; } ".toList
      [.choice (.call ['a']) (.call ['b']) (.branch (.constant true) (.block [.call ['c']]))] :=
    writes_spell hproper
  refine ⟨hwrites, fun other hother => ?_⟩
  rw [((calls_eliminate hwrites).2 other hother).2]
  simp [calls]

end MiniProgram.Script
