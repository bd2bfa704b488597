import MiniProgram.Proofs.Script.Folding
import MiniProgram.Source.Branch

/-!
# Folding a text folds its tokens

`Script.Folds` folds a conditional in a list of tokens, `fold?` folds one in a text. A text that
writes tokens is folded to a text that writes folded tokens (`folds_of_fold?`). The induction is on
how the text is written, one character or one token at a time.
-/

namespace MiniProgram.Script

open Source Text
open Source.Token (word mark)

variable {tokens : List Token} {text : List Char}

section Blocks

/-- A character that is no brace stands inside of the block that is closed behind it. -/
theorem of_closeBlock_cons {depth : Nat} {c : Char} {block rest : List Glyph}
    (hopening : c ≠ '{') (hclosing : c ≠ '}')
    (h : closeBlock depth (coded (c :: text)) = some (block, rest)) :
    ∃ inner, closeBlock depth (coded text) = some (inner, rest) ∧
      block = ⟨c, .code⟩ :: inner := by
  simp only [coded_cons, closeBlock, Glyph.mk.injEq, hopening, hclosing, false_and,
    if_false] at h
  exact prepend_eq_some_iff.1 h

/-- So do the characters of a word. -/
theorem of_closeBlock_name {depth : Nat} {name : List Char} {block rest : List Glyph}
    (hname : ∀ c ∈ name, isIdentifierChar c = true)
    (h : closeBlock depth (coded (name ++ text)) = some (block, rest)) :
    ∃ inner, closeBlock depth (coded text) = some (inner, rest) ∧ block = coded name ++ inner := by
  induction name generalizing block with
  | nil => exact ⟨block, h, rfl⟩
  | cons c name ih =>
      have hc := hname c (by simp)
      obtain ⟨tail, htail, rfl⟩ := of_closeBlock_cons (ne_of_isIdentifierChar hc (by decide))
        (ne_of_isIdentifierChar hc (by decide)) h
      obtain ⟨inner, hinner, rfl⟩ := ih (fun d hd => hname d (by simp [hd])) htail
      exact ⟨inner, hinner, rfl⟩

/-- `Cut depth tokens text block rest` says that `block` and `rest` are the two parts of a text of
`tokens`, cut behind the brace that closes a block in which `depth` further blocks are open. -/
def Cut (depth : Nat) (tokens : List Token) (text : List Char) (block rest : List Glyph) : Prop :=
  ∃ inner after front behind, tokens = inner ++ after ∧ text = front ++ behind ∧
    block = coded front ∧ rest = coded behind ∧ Closes depth inner ∧ Spaced inner front ∧
    Spaced after behind ∧ front.getLast? = some '}'

/-- A mark in front of a cut text. -/
theorem Cut.mark {depth outer : Nat} {c : Char} {block rest : List Glyph} (hc : isMark c = true)
    (hcloses : ∀ inner, Closes depth inner → Closes outer (.mark c :: inner))
    (h : Cut depth tokens text block rest) :
    Cut outer (.mark c :: tokens) (c :: text) (⟨c, .code⟩ :: block) rest := by
  obtain ⟨inner, after, front, behind, rfl, rfl, rfl, rfl, hinner, hfront, hbehind, hlast⟩ := h
  exact ⟨.mark c :: inner, after, c :: front, behind, rfl, rfl, rfl, rfl, hcloses inner hinner,
    .mark hc hfront, hbehind, by simp [List.getLast?_cons, hlast]⟩

/-- Closing a block of a text closes it in the tokens. -/
theorem cut_of_closeBlock {depth : Nat} {block rest : List Glyph} (h : Spaced tokens text)
    (hclose : closeBlock depth (coded text) = some (block, rest)) :
    Cut depth tokens text block rest := by
  induction h generalizing depth block with
  | nil => cases hclose
  | @blank c tokens text hc h ih =>
      obtain ⟨block, hblock, rfl⟩ := of_closeBlock_cons (ne_of_isBlank hc (by decide))
        (ne_of_isBlank hc (by decide)) hclose
      obtain ⟨inner, after, front, behind, rfl, rfl, rfl, rfl, hinner, hfront, hbehind, hlast⟩ :=
        ih hblock
      exact ⟨inner, after, c :: front, behind, rfl, rfl, rfl, rfl, hinner, .blank hc hfront,
        hbehind, by simp [List.getLast?_cons, hlast]⟩
  | @word name tokens text hname hend h ih =>
      obtain ⟨block, hblock, rfl⟩ := of_closeBlock_name (isName_iff.1 hname).2 hclose
      obtain ⟨inner, after, front, behind, rfl, rfl, rfl, rfl, hinner, hfront, hbehind, hlast⟩ :=
        ih hblock
      refine ⟨.word name :: inner, after, name ++ front, behind, rfl, by simp, by simp, rfl,
        hinner.word, .word hname ?_ hfront, hbehind, by simp [List.getLast?_append, hlast]⟩
      cases front with
      | nil => rfl
      | cons c front => exact hend
  | @mark c tokens text hc h ih =>
      by_cases hopening : c = '{'
      · subst hopening
        simp only [coded_cons, closeBlock, if_true] at hclose
        obtain ⟨inner, hinner, rfl⟩ := prepend_eq_some_iff.1 hclose
        exact (ih hinner).mark hc fun _ => .opening
      · by_cases hclosing : c = '}'
        · subst hclosing
          cases depth with
          | zero =>
              simp only [coded_cons, closeBlock, Glyph.mk.injEq, hopening, false_and, if_false,
                if_true, Option.some.injEq, Prod.mk.injEq] at hclose
              obtain ⟨rfl, rfl⟩ := hclose
              exact ⟨[.mark '}'], tokens, ['}'], text, rfl, rfl, rfl, rfl, .last,
                .mark hc .nil, h, rfl⟩
          | succ depth =>
              simp only [coded_cons, closeBlock, Glyph.mk.injEq, hopening, false_and, if_false,
                if_true] at hclose
              obtain ⟨inner, hinner, rfl⟩ := prepend_eq_some_iff.1 hclose
              exact (ih hinner).mark hc fun _ => .closing
        · obtain ⟨inner, hinner, rfl⟩ := of_closeBlock_cons hopening hclosing hclose
          exact (ih hinner).mark hc fun _ => .other (by simp [hopening]) (by simp [hclosing])

/-- A block of a text is a block of the tokens. -/
theorem cut_of_block? {block rest : List Glyph} (h : Spaced tokens text)
    (hblock : block? (coded text) = some (block, rest)) :
    ∃ others written inner, tokens = .mark '{' :: others ∧ Cut 0 others written inner rest ∧
      block = ⟨'{', .code⟩ :: inner := by
  obtain ⟨region, tail, inner, htext, hclose, rfl⟩ := block?_eq_some_iff.1 hblock
  obtain ⟨c, text, rfl, hc, rfl⟩ := List.map_eq_cons_iff.1 htext
  cases hc
  obtain ⟨others, rfl, hothers⟩ := h.of_mark (by decide)
  exact ⟨others, text, inner, rfl, cut_of_closeBlock hothers hclose, rfl⟩

end Blocks

section Conditionals

/-- `Left tokens folded` says that a text of `tokens` is folded to the code `folded`, as the tokens
are. -/
def Left (tokens : List Token) (folded : List Glyph) : Prop :=
  ∃ left written, folded = coded written ∧ Folds tokens left ∧ Spaced left written

/-- An else branch that is read follows in the tokens. -/
theorem of_alternative? {rest : List Glyph} (h : Spaced tokens text)
    (hread : alternative? (coded text) = some rest) :
    ∃ others written, tokens = elseWord :: others ∧ rest = coded written ∧
      Spaced others written := by
  obtain ⟨tail, htail, rfl⟩ := Option.map_eq_some_iff.1 hread
  obtain ⟨others, behind, rfl, rfl, hothers⟩ := h.of_word? (by decide) htail
  exact ⟨others, trimStart behind, rfl, skipBlanks_coded behind, hothers.trimStart⟩

/-- Without an else branch that is read, none follows in the tokens. -/
theorem head?_ne_of_alternative? (h : Spaced tokens text)
    (hread : alternative? (coded text) = none) : tokens.head? ≠ some elseWord := by
  intro hhead
  obtain ⟨others, rfl⟩ : ∃ others, tokens = elseWord :: others := by
    cases tokens with
    | nil => cases hhead
    | cons token others =>
        obtain rfl : token = elseWord := by simpa using hhead
        exact ⟨others, rfl⟩
  obtain ⟨behind, hbehind, -⟩ := h.word?_eq_some
  simp [alternative?, hbehind] at hread

/-- The branch that is left of a text is the one that is left of the tokens. -/
theorem left_of_branch {value : Bool} {block rest folded : List Glyph}
    (hcut : Cut 0 tokens text block rest)
    (hbranch : branch value (⟨'{', .code⟩ :: block) rest = some folded) :
    Left (header value ++ tokens) folded := by
  obtain ⟨inner, after, front, behind, rfl, rfl, rfl, rfl, hinner, hfront, hbehind, hlast⟩ := hcut
  have hend : boundary front.getLast? = true := by rw [hlast]; decide
  cases branch_eq_some_iff.1 hbranch with
  | dropped hnone =>
      exact ⟨_, '{' :: '}' :: behind, rfl, .dropped hinner (head?_ne_of_alternative? hbehind hnone),
        .mark (by decide) (.mark (by decide) hbehind)⟩
  | other hsome =>
      obtain ⟨others, written, rfl, rfl, hothers⟩ := of_alternative? hbehind hsome
      exact ⟨others, written, rfl, .other hinner, hothers⟩
  | kept hnone =>
      exact ⟨_, '{' :: (front ++ behind), by simp,
        .kept hinner (head?_ne_of_alternative? hbehind hnone),
        .mark (by decide) (hfront.append hbehind (.inl hend))⟩
  | chosen hsome hother =>
      obtain ⟨others, written, rfl, rfl, hothers⟩ := of_alternative? hbehind hsome
      obtain ⟨others, written, otherInner, rfl, hcut, rfl⟩ := cut_of_block? hothers hother
      obtain ⟨second, after, _, tail, rfl, rfl, rfl, rfl, hsecond, -, htail, -⟩ := hcut
      exact ⟨_, '{' :: (front ++ tail), by simp, .chosen hinner hsecond,
        .mark (by decide) (hfront.append htail (.inl hend))⟩

/-- A constant condition of a text is one of the tokens. -/
theorem of_condition? {value : Bool} {rest : List Glyph} (h : Spaced tokens text)
    (hread : condition? (coded text) = some (value, rest)) :
    ∃ others written, tokens = .mark '(' :: constantWord value :: .mark ')' :: others ∧
      rest = coded written ∧ Spaced others written := by
  obtain ⟨opened, behind, closed, hopened, hconstant, hclosed, rfl⟩ :=
    condition?_eq_some_iff.1 hread
  obtain ⟨constant, inner, rfl, rfl, hinner⟩ := h.of_symbol? (by decide) hopened
  obtain ⟨closing, outer, rfl, rfl, houter⟩ : ∃ closing outer,
      constant = constantWord value :: closing ∧ behind = coded outer ∧ Spaced closing outer := by
    rcases word?_of_constant? hconstant with ⟨rfl, hword⟩ | ⟨rfl, hword⟩ <;>
      exact hinner.of_word? (by decide) hword
  obtain ⟨others, last, rfl, rfl, hlast⟩ := houter.of_symbol? (by decide) hclosed
  exact ⟨others, trimStart last, rfl, skipBlanks_coded last, hlast.trimStart⟩

/-- A conditional that is folded right here is one of the tokens. -/
theorem left_of_foldHere {previous : Option Char} {folded : List Glyph} (h : Spaced tokens text)
    (hfold : foldHere previous (coded text) = some folded) : Left tokens folded := by
  obtain ⟨behind, value, inner, block, rest, hword, -, hcondition, hblock, hbranch⟩ :=
    foldHere_eq_some_iff.1 hfold
  obtain ⟨after, rfl, hend, rfl⟩ := (word?_coded_iff (by simp)).1 hword
  obtain ⟨_, rfl, hafter⟩ := h.of_name (by decide) hend
  obtain ⟨_, _, rfl, rfl, hinner⟩ := of_condition? hafter hcondition
  obtain ⟨_, _, _, rfl, hcut, rfl⟩ := cut_of_block? hinner hblock
  exact left_of_branch hcut hbranch

end Conditionals

section Search

/-- A conditional starts with an identifier character, at a boundary. -/
theorem foldHere_eq_none {previous : Option Char} {c : Char}
    (h : boundary previous = false ∨ c ≠ 'i') : foldHere previous (coded (c :: text)) = none := by
  refine Option.eq_none_iff_forall_ne_some.2 fun folded hfold => ?_
  obtain ⟨_, _, _, _, _, hword, hprevious, -⟩ := foldHere_eq_some_iff.1 hfold
  obtain ⟨after, hafter, -⟩ := (word?_coded_iff (by simp)).1 hword
  rcases h with h | h
  · rw [h] at hprevious; cases hprevious
  · exact h (List.cons.inj hafter).1

/-- A character at which no conditional starts stays in front. -/
theorem foldFrom_coded_cons {previous : Option Char} {c : Char} {folded : List Glyph}
    (hc : boundary previous = false ∨ c ≠ 'i')
    (h : foldFrom previous (coded (c :: text)) = some folded) :
    ∃ tail, foldFrom (some c) (coded text) = some tail ∧ folded = ⟨c, .code⟩ :: tail := by
  rw [coded_cons, foldFrom, ← coded_cons, foldHere_eq_none hc] at h
  obtain ⟨tail, htail, rfl⟩ := Option.map_eq_some_iff.1 h
  exact ⟨tail, htail, rfl⟩

/-- So do the characters of a word that has begun. -/
theorem foldFrom_coded_name {previous : Option Char} {name : List Char} {folded : List Glyph}
    (hprevious : boundary previous = false) (hname : ∀ c ∈ name, isIdentifierChar c = true)
    (h : foldFrom previous (coded (name ++ text)) = some folded) :
    ∃ last tail, foldFrom last (coded text) = some tail ∧ folded = coded name ++ tail := by
  induction name generalizing previous folded with
  | nil => exact ⟨previous, folded, h, rfl⟩
  | cons c name ih =>
      have hc : boundary (some c) = false := by simp [boundary_some, hname c (by simp)]
      obtain ⟨tail, htail, rfl⟩ := foldFrom_coded_cons (.inl hprevious) h
      obtain ⟨last, rest, hrest, rfl⟩ := ih hc (fun d hd => hname d (by simp [hd])) htail
      exact ⟨last, rest, hrest, rfl⟩

/-- Folding a text folds its tokens. Right behind a word nothing is folded, so what is left of a
text behind a word still begins at a boundary. -/
theorem left_of_foldFrom {previous : Option Char} {folded : List Glyph} (h : Spaced tokens text)
    (hfold : foldFrom previous (coded text) = some folded) :
    ∃ left written, folded = coded written ∧ Folds tokens left ∧ Spaced left written ∧
      (boundary text.head? = true → boundary written.head? = true) := by
  induction h generalizing previous folded with
  | nil => cases hfold
  | @blank c tokens text hc h ih =>
      have hfirst : c ≠ 'i' := by rintro rfl; revert hc; decide
      obtain ⟨tail, htail, rfl⟩ := foldFrom_coded_cons (.inr hfirst) hfold
      obtain ⟨left, written, rfl, hfolds, hleft, -⟩ := ih htail
      exact ⟨left, c :: written, rfl, hfolds, .blank hc hleft, id⟩
  | @word name tokens text hname hend h ih =>
      have hwhole := Spaced.word hname hend h
      have hhead := boundary_head?_append hname text
      obtain ⟨hne, hall⟩ := isName_iff.1 hname
      cases name with
      | nil => exact absurd rfl hne
      | cons c name =>
          rw [List.cons_append, coded_cons, foldFrom, ← coded_cons] at hfold
          split at hfold
          · next here hhere =>
              cases hfold
              obtain ⟨left, written, rfl, hfolds, hleft⟩ := left_of_foldHere hwhole hhere
              exact ⟨left, written, rfl, hfolds, hleft, fun h => by rw [hhead] at h; cases h⟩
          · obtain ⟨tail, htail, rfl⟩ := Option.map_eq_some_iff.1 hfold
            have hc : boundary (some c) = false := by simp [boundary_some, hall c (by simp)]
            obtain ⟨last, rest, hrest, rfl⟩ :=
              foldFrom_coded_name hc (fun d hd => hall d (by simp [hd])) htail
            obtain ⟨left, written, rfl, hfolds, hleft, hboundary⟩ := ih hrest
            exact ⟨.word (c :: name) :: left, c :: (name ++ written), by simp, .later hfolds,
              .word hname (hboundary hend) hleft, fun h => by rw [hhead] at h; cases h⟩
  | @mark c tokens text hc h ih =>
      have hfirst : c ≠ 'i' := by rintro rfl; revert hc; decide
      obtain ⟨tail, htail, rfl⟩ := foldFrom_coded_cons (.inr hfirst) hfold
      obtain ⟨left, written, rfl, hfolds, hleft, -⟩ := ih htail
      exact ⟨.mark c :: left, c :: written, rfl, .later hfolds, .mark hc hleft, id⟩

/-- Folding the first conditional of a text folds one of its tokens. -/
theorem left_of_fold? {folded : List Glyph} (h : Spaced tokens text)
    (hfold : fold? (coded text) = some folded) : Left tokens folded := by
  obtain ⟨left, written, hfolded, hfolds, hleft, -⟩ := left_of_foldFrom h hfold
  exact ⟨left, written, hfolded, hfolds, hleft⟩

end Search

end MiniProgram.Script
